import BlockTree.Proofs.Catalogue

/-! The walk to the orphans that wait below a root, one hash at a time. Nothing is noted of
what was visited, and the parents of orphans may go round in a circle. But a link has one
parent, and the root is not stored, so no hash comes up twice and the walk ends. -/

namespace BlockTree

namespace Node

section Walk

variable {σ : Type} [Store σ]

/-- What the rest of a walk comes to, after some links were planned. -/
def prepend {S : Type} (front : List Link) :
    EStateM.Result Error S (List Link) → EStateM.Result Error S (List Link)
  | .ok planned n => .ok (front ++ planned) n
  | .error e n => .error e n

/-- The walk takes the front anchor off its queue, asks for the children of that anchor, and
puts the orphans among them at the end. With the result come the hashes asked about. -/
inductive Walks : List Anchor → Node σ → List Hash →
    EStateM.Result Error (Node σ) (List Link) → Prop
  | done {n : Node σ} : Walks [] n [] (.ok [] n)
  | failed {x : Anchor} {queue : List Anchor} {n m : Node σ} {e : Error} :
    request (.nextLinks x.hash) n = .error e m → Walks (x :: queue) n [x.hash] (.error e m)
  | spoilt {x : Anchor} {queue : List Anchor} {n m : Node σ} {children : List Link} {e : Error} :
    request (.nextLinks x.hash) n = .ok children m →
      resolveChildren x.height x.work children = .error e →
        Walks (x :: queue) n [x.hash] (.error e m)
  | visited {x : Anchor} {queue : List Anchor} {n m : Node σ} {children resolved : List Link}
    {asked : List Hash} {r : EStateM.Result Error (Node σ) (List Link)} :
    request (.nextLinks x.hash) n = .ok children m →
      resolveChildren x.height x.work children = .ok resolved →
        Walks (queue ++ resolved.map .ofLink) m asked r →
          Walks (x :: queue) n (x.hash :: asked) (prepend resolved r)

variable {anchors queue : List Anchor} {n : Node σ} {asked : List Hash}
  {r : EStateM.Result Error (Node σ) (List Link)}

omit [Store σ] in
theorem prepend_append (front back : List Link) :
    prepend (front ++ back) r = prepend front (prepend back r) := by
  cases r with
  | ok planned m => simp [prepend]
  | error e m => rfl

theorem planGeneration_cons (x : Anchor) (anchors : List Anchor) (n : Node σ) :
    planGeneration (x :: anchors) n =
      match request (.nextLinks x.hash) n with
      | .error e m => .error e m
      | .ok children m =>
        match resolveChildren x.height x.work children with
        | .error e => .error e m
        | .ok resolved => prepend resolved (planGeneration anchors m) := by
  rw [planGeneration]
  simp only [bind, EStateM.bind]
  cases request (.nextLinks x.hash) n with
  | error e m => rfl
  | ok children m =>
    simp only
    cases resolveChildren x.height x.work children with
    | error e => rfl
    | ok resolved =>
      have hlift : (MonadExcept.ofExcept (.ok resolved) : NodeM σ (List Link)) m =
          .ok resolved m := rfl
      simp only [hlift]
      cases planGeneration anchors m <;> rfl

theorem planGenerations_cons (k : Nat) (x : Anchor) (anchors : List Anchor) (n : Node σ) :
    planGenerations (k + 1) (x :: anchors) n =
      match planGeneration (x :: anchors) n with
      | .error e m => .error e m
      | .ok next m => prepend next (planGenerations k (next.map .ofLink) m) := by
  simp only [planGenerations, bind, EStateM.bind]
  cases planGeneration (x :: anchors) n with
  | error e m => rfl
  | ok next m =>
    simp only
    cases planGenerations k (next.map .ofLink) m <;> rfl

/-- A generation is the part of the walk in which its anchors come off the queue. -/
theorem Walks.generation (h : Walks (anchors ++ queue) n asked r) :
    (∃ next m later r', planGeneration anchors n = .ok next m ∧
      asked = anchors.map Anchor.hash ++ later ∧ Walks (queue ++ next.map .ofLink) m later r' ∧
        r = prepend next r') ∨
    ∃ e m, planGeneration anchors n = .error e m ∧ r = .error e m := by
  induction anchors generalizing queue n asked r with
  | nil =>
    refine .inl ⟨[], n, asked, r, rfl, rfl, by simpa using h, ?_⟩
    cases r <;> rfl
  | cons x anchors ih =>
    rw [List.cons_append] at h
    rw [planGeneration_cons]
    cases h with
    | failed hask => exact .inr ⟨_, _, by rw [hask], rfl⟩
    | spoilt hask hres => exact .inr ⟨_, _, by simp only [hask, hres], rfl⟩
    | @visited _ _ _ m children resolved later r' hask hres hrest =>
      rw [List.append_assoc] at hrest
      simp only [hask, hres]
      rcases ih hrest with ⟨next, k, last, r'', hgen, rfl, hwalk, rfl⟩ | ⟨e, k, hgen, rfl⟩
      · refine .inl ⟨resolved ++ next, k, last, r'', by rw [hgen]; rfl, rfl, ?_, ?_⟩
        · rwa [List.map_append, ← List.append_assoc]
        · rw [prepend_append]
      · exact .inr ⟨e, k, by rw [hgen]; rfl, rfl⟩

theorem Walks.planGenerations_eq {k : Nat} (h : Walks anchors n asked r) (hk : asked.length ≤ k) :
    planGenerations k anchors n = r := by
  -- A generation that is not empty asks about one hash at least.
  induction k generalizing anchors n asked r with
  | zero =>
    cases h with
    | done => rfl
    | _ => simp at hk
  | succ k ih =>
    cases anchors with
    | nil =>
      cases h
      rfl
    | cons x anchors =>
      have hall : Walks (x :: anchors ++ []) n asked r := by rwa [List.append_nil]
      rw [planGenerations_cons]
      rcases hall.generation with ⟨next, m, later, r', hgen, rfl, hwalk, rfl⟩ | ⟨e, m, hgen, rfl⟩
      · rw [hgen]
        have hlen : later.length ≤ k := by
          simp only [List.map_cons, List.length_append, List.length_cons] at hk
          omega
        exact congrArg (prepend next) (ih hwalk hlen)
      · rw [hgen]

theorem Walks.planPromotions_eq {root : Anchor} (h : Walks [root] n asked r)
    (hreach : asked.length ≤ Store.reach n.store + 1) : planPromotions root n = r :=
  h.planGenerations_eq hreach

end Walk

section Front

variable {stored children : List Link} {root : Hash} {asked waiting : List Hash} {x : Anchor}

/-- The hashes that were asked about and those that wait for their turn. Each is the root or
that of an orphan whose parent had its turn, and none comes twice. -/
structure Front (stored : List Link) (root : Hash) (asked waiting : List Hash) : Prop where
  nodup : (asked ++ waiting).Nodup
  met : ∀ hash ∈ asked ++ waiting, hash = root ∨
    ∃ o ∈ stored, o.isOrphan ∧ o.block.hash = hash ∧ o.parentHash ∈ asked

theorem Front.start (stored : List Link) (root : Hash) : Front stored root [] [root] :=
  ⟨List.nodup_singleton root, fun _ hh => .inl (by simpa using hh)⟩

theorem Front.known (h : Front stored root asked waiting) : ∀ hash ∈ asked ++ waiting,
    hash = root ∨ ∃ o ∈ stored, o.isOrphan ∧ o.block.hash = hash := by
  intro hash hh
  rcases h.met hash hh with he | ⟨o, ho, horphan, he, -⟩
  · exact .inl he
  · exact .inr ⟨o, ho, horphan, he⟩

/-- There is one place for the root and one for each orphan. -/
theorem length_le_of_met {hashes : List Hash} (hnodup : hashes.Nodup)
    (hmet : ∀ hash ∈ hashes, hash = root ∨ ∃ o ∈ stored, o.isOrphan ∧ o.block.hash = hash) :
    hashes.length ≤ (stored.filter Link.isOrphan).length + 1 := by
  have hsub : hashes ⊆ root :: (stored.filter Link.isOrphan).map fun l => l.block.hash := by
    intro hash hh
    rcases hmet hash hh with rfl | ⟨o, hmem, horphan, rfl⟩
    · exact List.mem_cons_self
    · refine List.mem_cons_of_mem _ (List.mem_map.mpr ⟨o, ?_, rfl⟩)
      exact List.mem_filter.mpr ⟨hmem, horphan⟩
  have hle := (List.subperm_of_subset hnodup hsub).length_le
  rwa [List.length_cons, List.length_map] at hle

theorem Front.length_le (h : Front stored root asked waiting) :
    asked.length + waiting.length ≤ (stored.filter Link.isOrphan).length + 1 := by
  rw [← List.length_append]
  exact length_le_of_met h.nodup h.known

variable (hkeys : (stored.map fun l => l.block.hash).Nodup)
  (hroot : ∀ l ∈ stored, l.block.hash ≠ root)

include hkeys hroot

theorem Front.turn {hash : Hash} (h : Front stored root asked (hash :: waiting))
    (hchildren : children.Perm (stored.filter fun l => l.parentHash == hash)) :
    Front stored root (asked ++ [hash])
      (waiting ++ (children.filter Link.isOrphan).map fun l => l.block.hash) := by
  have hmem : ∀ o ∈ children, o ∈ stored ∧ o.parentHash = hash := fun o ho => by
    simpa using hchildren.mem_iff.mp ho
  -- A child that came up before came up under another parent, and it has only one.
  have hfresh : ∀ o ∈ children, o.block.hash ∉ asked ++ hash :: waiting := by
    intro o ho hold
    obtain ⟨hstored, hparent⟩ := hmem o ho
    rcases h.met _ hold with he | ⟨o', hstored', -, he, hparent'⟩
    · exact hroot o hstored he
    · rw [List.inj_on_of_nodup_map hkeys hstored' hstored he, hparent] at hparent'
      exact (List.disjoint_of_nodup_append h.nodup) hparent' List.mem_cons_self
  have hnew : ((children.filter Link.isOrphan).map fun l => l.block.hash).Nodup := by
    have hall : (children.map fun l => l.block.hash).Nodup :=
      (hchildren.map _).nodup_iff.mpr (hkeys.sublist (List.filter_sublist.map _))
    exact hall.sublist (List.filter_sublist.map _)
  have hsplit : asked ++ [hash] ++
      (waiting ++ (children.filter Link.isOrphan).map fun l => l.block.hash) =
        asked ++ hash :: waiting ++ (children.filter Link.isOrphan).map fun l => l.block.hash := by
    simp
  refine ⟨?_, ?_⟩
  · rw [hsplit]
    refine h.nodup.append hnew ?_
    intro k hold hk
    obtain ⟨o, ho, rfl⟩ := List.mem_map.mp hk
    exact hfresh o (List.mem_of_mem_filter ho) hold
  · rw [hsplit]
    intro k hk
    rcases List.mem_append.mp hk with hold | hk
    · rcases h.met k hold with he | ⟨o, ho, horphan, he, hparent⟩
      · exact .inl he
      · exact .inr ⟨o, ho, horphan, he, List.mem_append_left _ hparent⟩
    · obtain ⟨o, ho, rfl⟩ := List.mem_map.mp hk
      obtain ⟨ho, horphan⟩ := List.mem_filter.mp ho
      obtain ⟨hstored, hparent⟩ := hmem o ho
      exact .inr ⟨o, hstored, horphan, rfl, by simp [hparent]⟩

theorem Front.turn_anchors {queue : List Anchor}
    (h : Front stored root asked ((x :: queue).map Anchor.hash))
    (hchildren : children.Perm (stored.filter fun l => l.parentHash == x.hash)) :
    Front stored root (asked ++ [x.hash])
      ((queue ++ ((children.filter Link.isOrphan).map x.lift).map Anchor.ofLink).map
        Anchor.hash) := by
  have hturn := h.turn hkeys hroot hchildren
  simpa [Function.comp_def] using hturn

end Front

/-- What a walk came to: it met no hash twice and none but those of orphans, planned what it
met, and gave up on nothing but an orphan whose bits give no work. -/
structure Spans {S : Type} (stored : List Link) (root : Hash) (asked waiting later : List Hash)
    (r : EStateM.Result Error S (List Link)) : Prop where
  nodup : (asked ++ later).Nodup
  met : ∀ hash ∈ later, hash = root ∨ ∃ o ∈ stored, o.isOrphan ∧ o.block.hash = hash
  planned : ∀ planned m, r = .ok planned m → later = waiting ++ planned.map Link.hash ∧
    ∀ l ∈ planned, ∃ o ∈ stored, o.isOrphan ∧ ∃ x : Anchor, x.lift o = l
  failed : ∀ e m, r = .error e m → ∃ o ∈ stored, o.isOrphan ∧ ∃ fault,
    Work.ofBits o.block.header.bits = .error fault ∧
      e = .validation (.invalidTarget fault o.block.header.bits)

theorem Spans.prepend {S : Type} {stored resolved : List Link} {root hash : Hash}
    {asked waiting later : List Hash} {r : EStateM.Result Error S (List Link)}
    (h : Spans stored root (asked ++ [hash]) (waiting ++ resolved.map Link.hash) later r)
    (hmet : hash = root ∨ ∃ o ∈ stored, o.isOrphan ∧ o.block.hash = hash)
    (hresolved : ∀ l ∈ resolved, ∃ o ∈ stored, o.isOrphan ∧ ∃ x : Anchor, x.lift o = l) :
    Spans stored root asked (hash :: waiting) (hash :: later) (prepend resolved r) where
  nodup := by simpa using h.nodup
  met k hk := by
    rcases List.mem_cons.mp hk with rfl | hk
    · exact hmet
    · exact h.met k hk
  planned planned m he := by
    cases r with
    | error e k => cases he
    | ok rest k =>
      obtain ⟨hlater, hrest⟩ := h.planned rest k rfl
      cases he
      refine ⟨by simp [hlater], fun l hl => ?_⟩
      rcases List.mem_append.mp hl with hl | hl
      · exact hresolved l hl
      · exact hrest l hl
  failed e m he := by
    cases r with
    | ok rest k => cases he
    | error e' k =>
      cases he
      exact h.failed _ _ rfl

section Ending

variable {σ : Type} [Store σ] {P : σ → Prop} {kids : Hash → List Link} {stored : List Link}
  {root : Hash} {queue : List Anchor} {n : Node σ} {asked later : List Hash}
  {r : EStateM.Result Error (Node σ) (List Link)}
  (hanswer : ∀ hash s, P s → ∃ t, Store.answer (.nextLinks hash) s = .ok (kids hash) t ∧ P t)
  (hkids : ∀ hash, (kids hash).Perm (stored.filter fun l => l.parentHash == hash))
  (hkeys : (stored.map fun l => l.block.hash).Nodup)
  (hroot : ∀ l ∈ stored, l.block.hash ≠ root)

include hanswer in
theorem request_nextLinks (hn : P n.store) (hash : Hash) :
    ∃ m : Node σ, request (.nextLinks hash) n = .ok (kids hash) m ∧ P m.store := by
  obtain ⟨t, ht, hP⟩ := hanswer hash n.store hn
  exact ⟨{ n with store := t }, by simp [request, onStore, ask, ht], hP⟩

include hanswer hkids hkeys hroot

theorem Front.exists_walks (h : Front stored root asked (queue.map Anchor.hash))
    (hn : P n.store) {k : Nat}
    (hk : (stored.filter Link.isOrphan).length + 1 ≤ asked.length + k) :
    ∃ later r, Walks queue n later r := by
  -- Each turn takes one of the places that are left.
  induction k generalizing queue n asked with
  | zero =>
    have hlen := h.length_le
    rw [List.length_map] at hlen
    obtain rfl : queue = [] := List.eq_nil_of_length_eq_zero (by omega)
    exact ⟨_, _, .done⟩
  | succ k ih =>
    cases queue with
    | nil => exact ⟨_, _, .done⟩
    | cons x queue =>
      obtain ⟨m, hm, hP⟩ := request_nextLinks hanswer hn x.hash
      rcases resolveChildren_or x (kids x.hash) with hres | ⟨o, -, -, fault, -, hres⟩
      · have hfront := h.turn_anchors hkeys hroot (hkids x.hash)
        obtain ⟨later, r, hwalk⟩ := ih hfront hP (by simp; omega)
        exact ⟨_, _, .visited hm hres hwalk⟩
      · exact ⟨_, _, .spoilt hm hres⟩

theorem Front.spans (h : Front stored root asked (queue.map Anchor.hash)) (hn : P n.store)
    (hwalk : Walks queue n later r) :
    Spans stored root asked (queue.map Anchor.hash) later r := by
  induction hwalk generalizing asked with
  | done => exact ⟨by simpa using h.nodup, by simp, by simp, by simp⟩
  | @failed x queue n m e hask =>
    obtain ⟨m', hm', -⟩ := request_nextLinks hanswer hn x.hash
    cases hm'.symm.trans hask
  | @spoilt x queue n m children e hask hres =>
    obtain ⟨m', hm', -⟩ := request_nextLinks hanswer hn x.hash
    cases hm'.symm.trans hask
    rcases resolveChildren_or x (kids x.hash) with hall | ⟨o, ho, horphan, fault, hfault, hbad⟩
    · cases hall.symm.trans hres
    · cases hbad.symm.trans hres
      have hstored : o ∈ stored := List.mem_of_mem_filter ((hkids x.hash).mem_iff.mp ho)
      refine ⟨?_, fun k hk => ?_, fun _ _ he => (by cases he), fun _ _ he => ?_⟩
      · have hnodup := h.nodup
        rw [List.map_cons, List.append_cons] at hnodup
        exact hnodup.sublist (List.sublist_append_left _ _)
      · rw [List.mem_singleton.mp hk]
        exact h.known x.hash (by simp)
      · cases he
        exact ⟨o, hstored, horphan, fault, hfault, rfl⟩
  | @visited x queue n m children resolved later r hask hres hrest ih =>
    obtain ⟨m', hm', hP⟩ := request_nextLinks hanswer hn x.hash
    cases hm'.symm.trans hask
    rcases resolveChildren_or x (kids x.hash) with hall | ⟨o, -, -, fault, -, hbad⟩
    · cases hall.symm.trans hres
      have hspans := ih (h.turn_anchors hkeys hroot (hkids x.hash)) hP
      rw [List.map_append, List.map_map] at hspans
      refine hspans.prepend (h.known x.hash (by simp)) fun l hl => ?_
      obtain ⟨o, ho, rfl⟩ := List.mem_map.mp hl
      obtain ⟨ho, horphan⟩ := List.mem_filter.mp ho
      exact ⟨o, List.mem_of_mem_filter ((hkids x.hash).mem_iff.mp ho), horphan, x, rfl⟩
    · cases hbad.symm.trans hres

end Ending

section Stores

variable {b : Backing} {n : Node b.Contents} {stored : List Link} {root : Anchor}

/-- However the parents of the orphans in a store run, the walk below a root that is not stored
ends. It asks about no hash twice, and what it plans are orphans, each once. -/
theorem planPromotions_ends (h : Catalogued n.store stored)
    (hroot : (Demand.call (.getLink root.hash)).reply n.store = .ok none) :
    (∃ asked r, Walks [root] n asked r) ∧
    ∀ asked r, Walks [root] n asked r → planPromotions root n = r ∧ asked.Nodup ∧
      (∀ hash ∈ asked, hash = root.hash ∨ ∃ o ∈ stored, o.isOrphan ∧ o.block.hash = hash) ∧
      match r with
      | .ok planned _ => asked = root.hash :: planned.map Link.hash ∧
        (planned.map Link.hash).Nodup ∧
        planned.length ≤ (stored.filter Link.isOrphan).length ∧
        ∀ l ∈ planned, ∃ o ∈ stored, o.isOrphan ∧ ∃ x : Anchor, x.lift o = l
      | .error e _ => ∃ o ∈ stored, o.isOrphan ∧ ∃ fault,
        Work.ofBits o.block.header.bits = .error fault ∧
          e = .validation (.invalidTarget fault o.block.header.bits) := by
  choose kids hsaid hkids using h.nextLinks
  have hanswer : ∀ hash s, b.Undisturbed n.store s →
      ∃ t, Store.answer (.nextLinks hash) s = .ok (kids hash) t ∧ b.Undisturbed n.store t := by
    intro hash s hs
    obtain ⟨hsame, hleft⟩ := hs.nextLinks hash
    exact ⟨_, eq_ok_of_said (hsame.trans (hsaid hash)), hleft⟩
  have hfresh : ∀ l ∈ stored, l.block.hash ≠ root.hash := fun l hl => h.ne_of_reply hroot hl
  have hfront : Front stored root.hash [] ([root].map Anchor.hash) := Front.start stored root.hash
  have hstart := Backing.Undisturbed.refl n.store
  refine ⟨hfront.exists_walks hanswer hkids h.nodup hfresh hstart (Nat.zero_add _).ge,
    fun asked r hwalk => ?_⟩
  obtain ⟨hnodup, hmet, hplanned, hfailed⟩ :=
    hfront.spans hanswer hkids h.nodup hfresh hstart hwalk
  rw [List.nil_append] at hnodup
  have hlen := length_le_of_met hnodup hmet
  have hreach : (stored.filter Link.isOrphan).length ≤ Store.reach n.store :=
    (List.length_filter_le _ _).trans h.length_le_reach
  refine ⟨hwalk.planPromotions_eq (hlen.trans (Nat.succ_le_succ hreach)), hnodup, hmet, ?_⟩
  cases r with
  | ok planned m =>
    obtain ⟨hasked, horphans⟩ := hplanned planned m rfl
    have hcons : asked = root.hash :: planned.map Link.hash := hasked
    rw [hcons] at hnodup
    rw [hcons, List.length_cons, List.length_map] at hlen
    exact ⟨hcons, hnodup.of_cons, Nat.le_of_succ_le_succ hlen, horphans⟩
  | error e m => exact hfailed e m rfl

end Stores

/-- Two blocks wait for the first one, and the third, which came before them, for the later
of the two. -/
def waitingTree : Node Backing.arena.Contents :=
  let a : Arena := {
    links := [.orphan .third, (Link.orphan .second).withSeq 1, (Link.orphan .rival).withSeq 2]
    nextSeq := 3 }
  ⟨.ofArena {} a, a⟩

def firstAnchor : Anchor :=
  ⟨Block.first.hash, 0, 0⟩

theorem waitingTree_computed :
    [Block.first.hash, Block.third.hash, Block.second.hash, Block.rival.hash].Nodup ∧
    (said (planPromotions firstAnchor waitingTree)).map (List.map fun l => (l.hash, l.height?)) =
      .ok [(Block.second.hash, some 1), (Block.rival.hash, some 1),
        (Block.third.hash, some 2)] := by
  decide +kernel

/-- Both generations are planned, the nearer one first, each in the order of arrival. -/
theorem planPromotions_ends_waitingTree : ∃ planned m,
    Walks [firstAnchor] waitingTree
      [Block.first.hash, Block.second.hash, Block.rival.hash, Block.third.hash]
      (.ok planned m) ∧
    planPromotions firstAnchor waitingTree = .ok planned m ∧
    planned.map (fun l => (l.hash, l.height?)) =
      [(Block.second.hash, some 1), (Block.rival.hash, some 1), (Block.third.hash, some 2)] := by
  obtain ⟨hhashes, hplaces⟩ := waitingTree_computed
  obtain ⟨hroot, hnodup⟩ := List.nodup_cons.mp hhashes
  have hhash : ∀ l ∈ waitingTree.store.links, l.hash = l.block.hash := by
    simp [waitingTree, Link.orphan, Link.make, Link.withSeq]
  have hstored : Catalogued waitingTree.store waitingTree.store.links :=
    Arena.catalogued hnodup hhash
  have hnone : (Demand.call (.getLink firstAnchor.hash)).reply waitingTree.store = .ok none := by
    refine congrArg Except.ok (Arena.find?_eq_none.mpr fun l hl he => hroot ?_)
    exact List.mem_map.mpr ⟨l, hl, he⟩
  obtain ⟨⟨asked, r, hwalk⟩, hall⟩ := planPromotions_ends hstored hnone
  obtain ⟨hplan, -, -, hends⟩ := hall asked r hwalk
  obtain ⟨planned, hrun, hplanned⟩ := exists_of_map_said hplaces
  obtain rfl : r = .ok planned _ := hplan.symm.trans hrun
  obtain ⟨hasked, -⟩ := hends
  have hfound : planned.map Link.hash =
      [Block.second.hash, Block.rival.hash, Block.third.hash] := by
    have hfst := congrArg (List.map Prod.fst) hplanned
    rwa [List.map_map] at hfst
  rw [hfound] at hasked
  exact ⟨planned, _, hasked ▸ hwalk, hrun, hplanned⟩

end Node

end BlockTree
