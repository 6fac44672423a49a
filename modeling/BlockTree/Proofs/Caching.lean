import BlockTree.Proofs.Batches
import BlockTree.Proofs.Contract

/-! A shelf answers as the arena that its trees hold. What is kept at hand is final, so
it never differs from what the trees say. -/

namespace BlockTree

/-- The trees hold what the arena holds, and so does the cache as far as it goes. -/
structure Shelf.Holds (s : Shelf) (a : Arena) : Prop where
  trees : s.trees.Hold a
  cache : ∀ (h : Hash) (l : Link), s.cache[h.bytes]? = some l → a.find? h = some l ∧ l.isResolved

namespace Shelf.Holds

variable {s : Shelf} {a b : Arena} {link : Link}

theorem keep (h : s.Holds a) {hash : Hash} (hf : a.find? hash = some link) (hr : link.isResolved) :
    Holds { s with cache := s.cache.insert hash.bytes link } a where
  trees := h.trees
  cache k l hl := by
    rw [Tree.getElem?_insert] at hl
    by_cases he : hash = k
    · rw [if_pos (congrArg Hash.bytes he)] at hl
      rw [← Option.some.inj hl, ← he]
      exact ⟨hf, hr⟩
    · have hne : hash.bytes ≠ k.bytes := fun hk => he (Key.link_inj.mp hk)
      rw [if_neg hne] at hl
      exact h.cache k l hl

theorem remember (h : s.Holds a) (hf : link.isResolved → a.find? link.hash = some link) :
    (s.remember link).Holds a := by
  unfold Shelf.remember
  split
  · next hr => exact h.keep (hf hr) hr
  · exact h

theorem foldl_remember {links : List Link} (h : s.Holds a)
    (hf : ∀ l ∈ links, l.isResolved → a.find? l.hash = some l) :
    (links.foldl Shelf.remember s).Holds a := by
  induction links generalizing s with
  | nil => exact h
  | cons l ls ih =>
    exact ih (h.remember (hf l List.mem_cons_self)) fun m hm => hf m (List.mem_cons_of_mem _ hm)

/-- After a change of the trees, the cache is still right if resolved records stay. -/
theorem change (h : s.Holds a) {t : Trees} (ht : t.Hold b)
    (hkeep : ∀ (hash : Hash) (l : Link), a.find? hash = some l → l.isResolved →
      b.find? hash = some l) : Holds { s with trees := t } b where
  trees := ht
  cache k l hl := by
    obtain ⟨hf, hr⟩ := h.cache k l hl
    exact ⟨hkeep k l hf hr, hr⟩

theorem load (h : s.Holds a) (hash : Hash) :
    ∃ t, Shelf.load hash s = .ok (a.find? hash) t ∧ t.Holds a := by
  unfold Shelf.load
  cases hc : s.cache[hash.bytes]? with
  | some l => exact ⟨s, by simp only [(h.cache hash l hc).1], h⟩
  | none =>
    simp only [h.trees.find? hash]
    cases hf : a.find? hash with
    | none => exact ⟨s, rfl, h⟩
    | some l =>
      refine ⟨_, rfl, ?_⟩
      split
      · next hr => exact h.keep hf hr
      · exact h

theorem loadPointer (h : s.Holds a) {key : Bytes} {hash? : Option Hash}
    (hp : s.trees.pointers[key]? = hash?.map Key.link) :
    ∃ t, Shelf.loadPointer key s = .ok (hash?.bind a.find?) t ∧ t.Holds a := by
  cases hash? with
  | none =>
    refine ⟨s, ?_, h⟩
    simp only [Option.map_none] at hp
    simp [Shelf.loadPointer, hp, bind, EStateM.bind, get_apply, pure, EStateM.pure]
  | some hash =>
    obtain ⟨t, ht, hhold⟩ := h.load hash
    refine ⟨t, ?_, hhold⟩
    simp only [Option.map_some] at hp
    have hback : Hash.ofBytes (Key.link hash) = hash := Hash.ofBytes_bytes hash
    simp [Shelf.loadPointer, hp, hback, ht, bind, EStateM.bind, get_apply]

theorem loadPresent (h : s.Holds a) (hashes : List Hash) :
    ∃ t, Shelf.loadPresent hashes s = .ok (hashes.filterMap a.find?) t ∧ t.Holds a := by
  induction hashes generalizing s with
  | nil => exact ⟨s, rfl, h⟩
  | cons hash hashes ih =>
    obtain ⟨t, ht, hhold⟩ := h.load hash
    obtain ⟨t', ht', hhold'⟩ := ih hhold
    refine ⟨t', ?_, hhold'⟩
    simp only [Shelf.loadPresent, bind, EStateM.bind, ht, ht', pure, EStateM.pure]
    cases hf : a.find? hash with
    | none => simp [hf]
    | some l => simp [hf]

theorem loadChildren (h : s.Holds a) (hashes : List Hash)
    (hall : ∀ hash ∈ hashes, (a.find? hash).isSome) :
    ∃ t, Shelf.loadChildren hashes s = .ok (hashes.filterMap a.find?) t ∧ t.Holds a := by
  induction hashes generalizing s with
  | nil => exact ⟨s, rfl, h⟩
  | cons hash hashes ih =>
    obtain ⟨t, ht, hhold⟩ := h.load hash
    obtain ⟨t', ht', hhold'⟩ := ih hhold fun k hk => hall k (List.mem_cons_of_mem _ hk)
    obtain ⟨l, hf⟩ := Option.isSome_iff_exists.mp (hall hash List.mem_cons_self)
    refine ⟨t', ?_, hhold'⟩
    simp only [Shelf.loadChildren, bind, EStateM.bind, ht, ht', hf, pure, EStateM.pure,
      List.filterMap_cons]

end Shelf.Holds

/-- Links with different places are sorted in one way. -/
theorem Arena.mergeSort_of_perm {ls ms : List Link} (hperm : ls.Perm ms)
    (hsorted : ms.Pairwise fun l m => l.seq < m.seq) :
    (ls.mergeSort fun l m => decide (l.seq ≤ m.seq)) = ms := by
  have hmerge := (List.mergeSort_perm ls fun l m => decide (l.seq ≤ m.seq)).trans hperm
  have htrans : ∀ l m n : Link, decide (l.seq ≤ m.seq) = true → decide (m.seq ≤ n.seq) = true →
      decide (l.seq ≤ n.seq) = true := by
    intro l m n
    simpa using Nat.le_trans
  have htotal : ∀ l m : Link, (decide (l.seq ≤ m.seq) || decide (m.seq ≤ l.seq)) = true := by
    intro l m
    simpa using Nat.le_total l.seq m.seq
  have hsort : (ls.mergeSort fun l m => decide (l.seq ≤ m.seq)).Pairwise
      fun l m => l.seq ≤ m.seq :=
    (List.pairwise_mergeSort htrans htotal _).imp fun h => of_decide_eq_true h
  have hnodup : (ms.map Link.seq).Nodup :=
    List.pairwise_map.mpr (hsorted.imp fun h => Nat.ne_of_lt h)
  refine hmerge.eq_of_pairwise ?_ hsort (hsorted.imp Nat.le_of_lt)
  intro l m hl hm hlm hml
  exact List.inj_on_of_nodup_map hnodup (hmerge.mem_iff.mp hl) hm (Nat.le_antisymm hlm hml)

namespace Arena.Ordered

variable {a : Arena}

theorem filterMap_find? (ha : a.Ordered) {links : List Link} (hsub : links ⊆ a.links) :
    (links.map Link.hash).filterMap a.find? = links := by
  induction links with
  | nil => rfl
  | cons l ls ih =>
    have hl := ha.find?_mem (hsub List.mem_cons_self)
    rw [List.map_cons, List.filterMap_cons, hl, ih fun m hm => hsub (List.mem_cons_of_mem _ hm)]

theorem mergeSort_children (ha : a.Ordered) {parent : Hash} {hashes : List Hash}
    (hnodup : hashes.Nodup)
    (hmem : ∀ hash, hash ∈ hashes ↔ ∃ l ∈ a.children parent, l.hash = hash) :
    ((hashes.filterMap a.find?).mergeSort fun l m => decide (l.seq ≤ m.seq)) =
      a.children parent := by
  have hsorted : (a.children parent).Pairwise fun l m => l.seq < m.seq := ha.sorted.filter _
  have hperm : (hashes.filterMap a.find?).Perm (a.children parent) := by
    refine (List.perm_ext_iff_of_nodup ?_ ?_).mpr ?_
    · refine hnodup.filterMap ?_
      intro h k l hl hl'
      rw [← (mem_of_find? hl).2, ← (mem_of_find? hl').2]
    · exact hsorted.imp fun h he => absurd (congrArg Link.seq he) (Nat.ne_of_lt h)
    · intro l
      rw [List.mem_filterMap]
      constructor
      · intro hl
        obtain ⟨h, hh, hf⟩ := hl
        obtain ⟨m, hm, he⟩ := (hmem h).mp hh
        rw [← he, ha.find?_mem (List.mem_of_mem_filter hm)] at hf
        exact Option.some.inj hf ▸ hm
      · intro hl
        exact ⟨l.hash, (hmem _).mpr ⟨l, hl, rfl⟩, ha.find?_mem (List.mem_of_mem_filter hl)⟩
  exact mergeSort_of_perm hperm hsorted

end Arena.Ordered

/-- Caches are lost at will. Places are numbered in 64 bits. -/
instance : Medium Shelf where
  empty := {}
  drifts s t := t.trees = s.trees ∧
    ∀ (k : Bytes) (l : Link), t.cache[k]? = some l → s.cache[k]? = some l
  room s block := block.Writable ∧ ∀ n, s.trees.nextSeq = .ok n → n + 1 < 2 ^ 64

namespace Shelf

variable {s : Shelf} {a : Arena} {link : Link} {promoted : List Link} {α β γ : Type}
  {parent : Hash → Hash}

/-- The same answer, by a shelf that holds then what the arena holds. -/
def Echoes : EStateM.Result Error Shelf α → EStateM.Result Error Arena α → Prop
  | .ok v t, .ok w b => v = w ∧ t.Holds b
  | .error e t, .error f b => e = f ∧ t.Holds b
  | _, _ => False

theorem Echoes.of_ok {r : EStateM.Result Error Shelf α} {v : α} {t : Shelf} (h : r = .ok v t)
    (ht : t.Holds a) : Echoes r (.ok v a) := by
  rw [h]
  exact ⟨rfl, ht⟩

/-- The trees change as the arena does, and then the cache is put right. -/
theorem Holds.attempt (h : s.Holds a) {R : β × Trees → γ → Prop} (out : β → α)
    (keep : β → Shelf → Shelf) {change : Trees → Except Error (β × Trees)}
    {planned : Except Error γ} (turn : γ → α × Arena)
    (halong : Alongside R (change s.trees) planned)
    (hok : ∀ v t w, planned = .ok w → R (v, t) w →
      out v = (turn w).1 ∧ Holds (keep v { s with trees := t }) (turn w).2) :
    Echoes ((do
      let v ← Shelf.attempt change
      modify (keep v)
      return out v) s) (Arena.attempt (fun _ => planned.map turn) a) := by
  unfold Arena.attempt
  simp only [bind, EStateM.bind, Shelf.attempt]
  cases hc : planned with
  | error e =>
    rw [hc] at halong
    rw [halong.of_error]
    exact ⟨rfl, h⟩
  | ok w =>
    rw [hc] at halong
    obtain ⟨⟨v, t⟩, hp, hpw⟩ := halong.of_ok
    rw [hp]
    exact hok v t w hc hpw

section Answers

variable (h : s.Holds a) (hk : a.Kept parent)

include h hk

theorem Holds.addLink (hl : link.Suits parent) (hlt : a.nextSeq + 1 < 2 ^ 64) :
    Echoes (answer (.addLink link) s) (Arena.answer (.addLink link) a) := by
  have hsame : Arena.answer (.addLink link) a =
      Arena.attempt (fun _ => (a.insert link).map id) a := by
    cases hi : a.insert link <;> simp [Arena.answer, Arena.attempt, hi, Except.map]
  have halong := h.trees.insert hk.ordered (hl.writable _ h.trees.small) hlt
  rw [hsame]
  refine h.attempt id (fun v s => s.remember v) id halong fun v t w hw hvw => ?_
  obtain ⟨rfl, hhold⟩ := hvw
  obtain ⟨hold, hnew⟩ := hk.find?_insert hl hw
  exact ⟨rfl, (h.change hhold fun _ _ hf _ => hold hf).remember fun _ => hnew⟩

theorem Holds.updateLink (hl : link.Suits parent) :
    Echoes (answer (.updateLink link) s) (Arena.answer (.updateLink link) a) := by
  have hparent : ∀ o ∈ a.links, o.hash = link.hash → o.parentHash = link.parentHash := by
    intro o ho he
    rw [hk.parents o ho, he, hl.parent_eq]
  have hsame : Arena.answer (.updateLink link) a = Arena.attempt
      (fun _ => (a.planUpdate link).map fun v? => ((), v?.elim a a.replace)) a := by
    cases hp : a.planUpdate link with
    | error e => simp [Arena.answer, Arena.attempt, Arena.update, hp, Except.map, bind, Except.bind]
    | ok v? => cases v? <;>
        simp [Arena.answer, Arena.attempt, Arena.update, hp, Except.map, bind, Except.bind, pure,
          Except.pure]
  have halong := h.trees.promote hk.ordered hparent hl.writable
  rw [hsame]
  refine h.attempt (fun _ => ()) (fun (v? : Option Link) s => v?.toList.foldl Shelf.remember s) _
    halong fun v? t w hw hvw => ?_
  obtain ⟨rfl, hhold⟩ := hvw
  obtain ⟨hold, hnew⟩ := hk.find?_planned hl hw
  exact ⟨rfl, (h.change hhold fun _ _ => hold).foldl_remember fun v hv _ => hnew v hv⟩

theorem Holds.addAndPromote (hl : link.Suits parent) (hus : ∀ u ∈ promoted, u.Suits parent)
    (hlt : a.nextSeq + 1 < 2 ^ 64) :
    Echoes (answer (.addAndPromote link promoted) s)
      (Arena.answerInTurn (.addAndPromote link promoted) a) := by
  have halong := h.trees.insertInTurn hk hl hus hlt
  refine h.attempt Prod.fst (fun v s => (v.2 ++ [v.1]).foldl Shelf.remember s)
    (fun p : (Link × List Link) × Arena => (p.1.1, p.2)) halong fun v t w hw hvw => ?_
  obtain ⟨rfl, hhold⟩ := hvw
  obtain ⟨-, hold, hnew⟩ := hk.insertInTurn hl hus hw
  exact ⟨rfl, (h.change hhold fun _ _ => hold).foldl_remember hnew⟩

omit hk in
theorem Holds.removeOrphan (ha : a.Ordered) (hash : Hash) :
    Echoes (answer (.removeOrphan hash) s) (Arena.answer (.removeOrphan hash) a) := by
  have hsame : Arena.answer (.removeOrphan hash) a =
      Arena.attempt (fun _ => (a.removeOrphan hash).map id) a := by
    cases hr : a.removeOrphan hash <;> simp [Arena.answer, Arena.attempt, hr, Except.map]
  have halong := h.trees.removeOrphan ha hash
  rw [hsame]
  refine h.attempt id (fun _ s => { s with cache := s.cache.erase hash.bytes }) id halong
    fun v t w hw hvw => ?_
  obtain ⟨rfl, hhold⟩ := hvw
  obtain ⟨l, -, -, rfl⟩ := Arena.removeOrphan_eq_ok hw
  refine ⟨rfl, hhold, fun k m hm => ?_⟩
  rw [Tree.getElem?_erase] at hm
  by_cases he : hash.bytes = k.bytes
  · simp [he] at hm
  · rw [if_neg he] at hm
    obtain ⟨hf, hr⟩ := h.cache k m hm
    have hne : hash ≠ k := fun hhk => he (congrArg Hash.bytes hhk)
    exact ⟨(Arena.find?_drop k).trans ((if_neg hne).trans hf), hr⟩

omit hk in
theorem Holds.nextLinks (ha : a.Ordered) (parent : Hash) :
    Echoes (answer (.nextLinks parent) s) (Arena.answer (.nextLinks parent) a) := by
  have hmem : ∀ hash, hash ∈ s.trees.childHashes parent ↔ ∃ l ∈ a.children parent, l.hash = hash :=
    fun hash => h.trees.mem_childHashes
  obtain ⟨t, ht, hhold⟩ := h.loadChildren (s.trees.childHashes parent) fun hash hh => by
    obtain ⟨l, hl, he⟩ := (hmem hash).mp hh
    rw [← he, ha.find?_mem (List.mem_of_mem_filter hl)]
    rfl
  have hsort := ha.mergeSort_children (h.trees.nodup_childHashes parent) hmem
  have hrun : answer (.nextLinks parent) s = .ok (a.children parent) t := by
    simp [answer, bind, EStateM.bind, get_apply, ht, hsort, pure, EStateM.pure]
  exact .of_ok hrun hhold

omit hk in
theorem Holds.orphanLinks (ha : a.Ordered) :
    Echoes (answer .orphanLinks s) (Arena.answer .orphanLinks a) := by
  obtain ⟨t, ht, hhold⟩ := h.loadPresent s.trees.orphanHashes
  have hsub : a.orphans ⊆ a.links := fun _ hl => List.mem_of_mem_filter hl
  rw [h.trees.orphanHashes ha, ha.filterMap_find? hsub] at ht
  have hrun : answer .orphanLinks s = .ok a.orphans t := by
    simp [answer, bind, EStateM.bind, get_apply, h.trees.orphanHashes ha, ht]
  exact .of_ok hrun hhold

/-- A shelf answers every call as an arena that makes batches one record after another. -/
theorem Holds.answer {call : Call α} (hsuits : ∀ l ∈ call.links, l.Suits parent)
    (hlt : call.links ≠ [] → a.nextSeq + 1 < 2 ^ 64) :
    Echoes (answer call s) (Arena.answerInTurn call a) := by
  cases call with
  | addLink link => exact h.addLink hk (hsuits link List.mem_cons_self) (hlt (by simp [Call.links]))
  | getLink hash =>
    obtain ⟨t, ht, hhold⟩ := h.load hash
    exact .of_ok ht hhold
  | genesisLink =>
    obtain ⟨t, ht, hhold⟩ := h.loadPointer h.trees.genesis
    exact .of_ok ht hhold
  | lastLink =>
    obtain ⟨t, ht, hhold⟩ := h.loadPointer h.trees.best
    exact .of_ok ht hhold
  | nextLinks hash => exact h.nextLinks hk.ordered hash
  | updateLink link => exact h.updateLink hk (hsuits link List.mem_cons_self)
  | addAndPromote link promoted =>
    exact h.addAndPromote hk (hsuits link List.mem_cons_self)
      (fun u hu => hsuits u (List.mem_cons_of_mem _ hu)) (hlt (by simp [Call.links]))
  | removeOrphan hash => exact h.removeOrphan hk.ordered hash
  | orphanLinks => exact h.orphanLinks hk.ordered
  | linkCount => exact ⟨h.trees.size, h⟩

end Answers

end Shelf

/-- For an arena that is promised no other calls, it makes no difference how batches are
made. -/
theorem Arena.answerInTurn_of_promised {a : Arena} {fits : Nat → Block → Prop} {α : Type}
    {call : Call α} (hp : a.Promised fits call) :
    Arena.answerInTurn call a = Arena.answer call a := by
  cases call with
  | addAndPromote link promoted =>
    obtain ⟨hf, -⟩ := hp
    simp only [Arena.answerInTurn, Arena.answer, Arena.attempt, hf.tidy.eq_insertInTurn]
  | _ => rfl

instance : Faithful Shelf where
  holds := Shelf.Holds
  troubled _ := False
  fits seq block := block.Writable ∧ seq + 1 < 2 ^ 64
  holds_empty := ⟨Trees.hold_empty, by simp [Medium.empty]⟩
  holds_drift h hd := ⟨hd.1 ▸ h.trees, fun k l hl => h.cache k l (hd.2 k.bytes l hl)⟩
  fits_of_room h hroom := ⟨hroom.1, hroom.2 _ h.trees.counter⟩
  reach h := by
    rw [← h.trees.size]
    exact Nat.le_add_right _ _
  answers := by
    intro s a b α call v h ha hp he
    have ho := ha.ordered
    refine .inl ?_
    have hechoes {parent : Hash → Hash} (hk : a.Kept parent)
        (hsuits : ∀ l ∈ call.links, l.Suits parent)
        (hlt : call.links ≠ [] → a.nextSeq + 1 < 2 ^ 64) :
        ∃ t, Store.answer call s = .ok v t ∧ Shelf.Holds t b ∧ (False → False) := by
      have hanswer := h.answer hk hsuits hlt
      rw [Arena.answerInTurn_of_promised hp, he] at hanswer
      change Shelf.Echoes (Store.answer call s) _ at hanswer
      cases hrun : Store.answer call s with
      | error e t =>
        rw [hrun] at hanswer
        exact hanswer.elim
      | ok w t =>
        rw [hrun] at hanswer
        exact ⟨t, congrArg (EStateM.Result.ok · t) hanswer.1, hanswer.2, id⟩
    have hfiled {link : Link} {promoted : List Link} (hf : a.Files link promoted)
        (hblock : link.block.Writable) (hb : ∀ l ∈ link :: promoted, a.Bounded l) :
        ∃ parent, a.Kept parent ∧ ∀ l ∈ link :: promoted, l.Suits parent := by
      obtain ⟨parent, hk, hl⟩ := hf.exists_kept ha
      refine ⟨parent, hk, fun l hmem => ⟨(hl l hmem).2, (hl l hmem).1, fun n hn => ?_⟩⟩
      have hwritable : l.block.Writable := by
        rcases List.mem_cons.mp hmem with rfl | hu
        · exact hblock
        · obtain ⟨o, hmo, -, -, hob, -⟩ := hf.replaces l hu
          exact hob ▸ (h.trees.writable o hmo).block
      have hbounded : a.Bounded (l.withSeq n) := hb l hmem
      exact .of_bounded ho h.trees.small hwritable hn hbounded
    cases call with
    | addLink link =>
      obtain ⟨horphan, hf, hfits⟩ := hp
      have hbounded : ∀ l ∈ [link], a.Bounded l := by
        intro l hl n w hs
        rw [List.mem_singleton.mp hl, Link.isOrphan_iff.mp horphan] at hs
        cases hs
      obtain ⟨parent, hk, hsuits⟩ := hfiled hf hfits.1 hbounded
      exact hechoes hk hsuits fun _ => hfits.2
    | addAndPromote link promoted =>
      obtain ⟨hf, hfits, hb⟩ := hp
      obtain ⟨parent, hk, hsuits⟩ := hfiled hf hfits.1 hb
      exact hechoes hk hsuits fun _ => hfits.2
    | updateLink link => exact hp.elim
    | _ => exact hechoes ha.kept (by simp [Call.links]) (by simp [Call.links])

end BlockTree
