import BlockTree.Proofs.Conservation
import BlockTree.Proofs.Restarts

/-! Imports, beside handing in the same blocks one after another. What an import checks all at
once it does not hand in, and a block that does not pass would have changed nothing. -/

namespace BlockTree

/-- The block was turned down for what it is or where it stands. -/
def isRejection : Except Error Outcome → Bool
  | .error (.validation _) => true
  | _ => false

namespace Tally

/-- Any other error stops an import. -/
def hear (t : Tally) : Except Error Outcome → Tally
  | .ok outcome => t.note outcome
  | .error (.duplicateLink _) => t.noteDuplicate
  | .error (.validation _) => t.noteRejected
  | .error _ => t

def ofReplies (rs : List (Except Error Outcome)) : Tally :=
  rs.foldl hear {}

def plus (t u : Tally) : Tally where
  accepted := t.accepted + u.accepted
  orphaned := t.orphaned + u.orphaned
  promoted := t.promoted + u.promoted
  duplicate := t.duplicate + u.duplicate
  rejected := t.rejected + u.rejected

variable {r : Except Error Outcome} {rs ss : List (Except Error Outcome)}

theorem hear_plus (t u : Tally) : (t.plus u).hear r = t.plus (u.hear r) := by
  cases r with
  | ok o =>
    by_cases ho : o.status.isOrphan
    · simp [hear, note, plus, ho, Nat.add_assoc]
    · simp [hear, note, plus, ho, Nat.add_assoc]
  | error e => cases e <;> rfl

theorem foldl_hear_plus (t u : Tally) : rs.foldl hear (t.plus u) = t.plus (rs.foldl hear u) := by
  induction rs generalizing u with
  | nil => rfl
  | cons r rs ih => rw [List.foldl_cons, hear_plus, ih, List.foldl_cons]

theorem ofReplies_append : ofReplies (rs ++ ss) = (ofReplies rs).plus (ofReplies ss) := by
  have hempty : (ofReplies rs).plus {} = ofReplies rs := rfl
  rw [ofReplies, List.foldl_append]
  change ss.foldl hear (ofReplies rs) = _
  rw [← hempty, foldl_hear_plus]
  rfl

theorem rejected_hear (t : Tally) (r : Except Error Outcome) :
    (t.hear r).rejected = t.rejected + (isRejection r).toNat := by
  cases r with
  | ok o =>
    by_cases ho : o.status.isOrphan
    · simp [hear, note, isRejection, ho]
    · simp [hear, note, isRejection, ho]
  | error e => cases e <;> rfl

theorem rejected_foldl_hear (t : Tally) :
    (rs.foldl hear t).rejected = t.rejected + rs.countP isRejection := by
  induction rs generalizing t with
  | nil => rfl
  | cons r rs ih =>
    rw [List.foldl_cons, ih, rejected_hear]
    by_cases hr : isRejection r
    · rw [List.countP_cons_of_pos hr, hr, Bool.toNat_true]
      omega
    · rw [List.countP_cons_of_neg hr, Bool.eq_false_of_not_eq_true hr, Bool.toNat_false]
      omega

end Tally

def Metrics.tally (m : Metrics) : Tally where
  accepted := m.accepted
  orphaned := m.orphaned
  promoted := m.promoted
  duplicate := m.duplicate
  rejected := m.rejected

namespace Node

section Counting

variable {d : Delivery} {ds : List Delivery} {block : Block} {x y : Node Arena}
  {r : Except Error Outcome} {rs : List (Except Error Outcome)} {links orphans : Nat}
  {change? : Option BranchChange} {published : List BranchChange}

theorem Settles.tally_eq (h : x.Settles change? y) :
    y.engine.metrics.tally = x.engine.metrics.tally := by
  cases change? with
  | none => rw [h.1]
  | some change =>
    rw [h.1]
    rfl

/-- An engine counts what it answers. -/
theorem Replies.tally_eq (h : x.Replies d r y) :
    y.engine.metrics.tally = x.engine.metrics.tally.hear r := by
  cases h with
  | refused hrefused => rcases refusal?_eq_some hrefused with ⟨fault, rfl⟩ | rfl <;> rfl
  | @submitted o _ ho =>
    rw [ho.settles.tally_eq, Tally.hear, Tally.note, ho.promoted_eq, ho.status_eq]
    unfold Node.taken
    cases x.store.place d.block <;> rfl

theorem RepliesAll.tally_eq (h : x.RepliesAll ds rs y) :
    y.engine.metrics.tally = rs.foldl Tally.hear x.engine.metrics.tally := by
  induction h with
  | done => rfl
  | next hstep _ ih => rw [ih, hstep.tally_eq, List.foldl_cons]

/-- Every block is counted in one way. -/
theorem Replies.hear_total (h : x.Replies d r y) (t : Tally) :
    (t.hear r).accepted + (t.hear r).orphaned + (t.hear r).duplicate + (t.hear r).rejected =
      t.accepted + t.orphaned + t.duplicate + t.rejected + 1 := by
  cases h with
  | refused hrefused =>
    rcases refusal?_eq_some hrefused with ⟨fault, rfl⟩ | rfl
    · simp only [Tally.hear, Tally.noteRejected]
      omega
    · simp only [Tally.hear, Tally.noteDuplicate]
      omega
  | @submitted o _ ho =>
    by_cases horphan : o.status.isOrphan
    · simp only [Tally.hear, Tally.note, horphan, if_true]
      omega
    · simp only [Tally.hear, Tally.note, horphan, Bool.false_eq_true, if_false]
      omega

theorem RepliesAll.total (h : x.RepliesAll ds rs y) (t : Tally) :
    (rs.foldl Tally.hear t).accepted + (rs.foldl Tally.hear t).orphaned +
        (rs.foldl Tally.hear t).duplicate + (rs.foldl Tally.hear t).rejected =
      t.accepted + t.orphaned + t.duplicate + t.rejected + ds.length := by
  induction h generalizing t with
  | done => rfl
  | next hstep _ ih =>
    have hone := hstep.hear_total t
    rw [List.foldl_cons, ih, List.length_cons]
    omega

theorem RepliesAll.balanced (h : x.RepliesAll ds rs y) (hx : x.Sound)
    (hbalanced : Balanced links orphans published x) :
    ∃ published, Balanced links orphans published y := by
  induction h generalizing published with
  | done => exact ⟨published, hbalanced⟩
  | next hstep _ ih =>
    obtain ⟨change?, hreceives⟩ := hstep.receives
    exact ih (hstep.sound hx).1 (hbalanced.receives hx hreceives)

/-- From its opening on, an engine counts the links that are resolved. -/
theorem Balanced.countP_isResolved
    (h : Balanced x.store.links.length x.store.orphans.length published y) (hx : x.Sound)
    (hy : y.Sound) : y.store.links.countP Link.isResolved = x.store.links.countP Link.isResolved +
      y.engine.metrics.tally.accepted + y.engine.metrics.tally.promoted := by
  have hbefore := hx.countP_isResolved
  have hafter := hy.countP_isResolved
  have hqueue := congrArg List.length hx.queue
  have hlinks := h.links_eq
  have horphans := h.orphans_eq
  rw [List.length_map] at hqueue
  simp only [Metrics.tally]
  omega

end Counting

section Imports

variable {b : Backing} {n m k : b.Ledger} {x y u v : Node Arena} {now drift : Int}
  {d : Delivery} {ds es xs ys : List Delivery}

theorem replies_append (n : b.Ledger) (ds es : List Delivery) :
    n.replies (ds ++ es) = n.replies ds ++ (n.feed ds).replies es := by
  induction ds generalizing n with
  | nil => rfl
  | cons d ds ih => exact congrArg (n.reply d :: ·) (ih (n.deliver d))

theorem Matches.symm (h : n.Matches m) : m.Matches n where
  answers call hreads v := (h.answers call hreads v).symm
  nextSeq := h.nextSeq.symm
  orphans := h.orphans.symm
  tip := h.tip.symm

theorem Matches.trans (h : n.Matches m) (h' : m.Matches k) : n.Matches k where
  answers call hreads v := (h.answers call hreads v).trans (h'.answers call hreads v)
  nextSeq := h.nextSeq.trans h'.nextSeq
  orphans := h.orphans.trans h'.orphans
  tip := h.tip.trans h'.tip

def checked (now drift : Int) (ds : List Delivery) : List (Delivery × Except Error Work) :=
  ds.map fun d => (d, (validate now drift d.block).mapError .validation)

theorem importAll_eq (n : b.Ledger) : importAll now ds n =
    (checked now n.engine.config.maxFutureDrift ds).foldlM importBlock {} n := by
  rw [checked, List.map_prod_left_eq_zip]
  change (ds.zip ((ds.map Delivery.block).map _)).foldlM importBlock {} n = _
  rw [List.map_map]
  rfl

/-- A block that has passed is handed in, and what comes back never stops the import. -/
theorem importBlock_eq (h : x.Replies d (n.reply d) y) (t : Tally) (work : Work) :
    importBlock t (d, .ok work) n = .ok (t.hear (n.reply d)) (n.deliver d) := by
  unfold importBlock
  simp only [bind, EStateM.bind, attempt_submit]
  generalize n.reply d = r at h ⊢
  cases h with
  | refused hrefused => rcases refusal?_eq_some hrefused with ⟨fault, rfl⟩ | rfl <;> rfl
  | submitted => rfl

theorem Twins.noted (h : Twins x u) (e : Error) : Twins x (u.noted e) :=
  ⟨⟨h.alike.store, h.alike.orphans, h.alike.config⟩, h.sound, h.settled, sound_noted h.sound' e,
    h.settled'⟩

/-- A block that does not pass is not handed in, and the other node turns it down. -/
theorem Twins.importBlock (h : Twins x u) (hn : Node.Shows False n x) (hm : Node.Shows False m u)
    (hdrift : x.engine.config.maxFutureDrift = drift)
    (hchecked : SameVerdict drift ⟨now, d.block⟩ d) (hsame : SameVerdict drift d e)
    (hroom : Medium.room m.store e.block) (t : Tally) :
    ∃ k y v, Node.importBlock t (d, (validate now drift d.block).mapError .validation) n =
        .ok (t.hear (m.reply e)) k ∧
      Node.Shows False k y ∧ Node.Shows False (m.deliver e) v ∧ Twins y v ∧
        u.Replies e (m.reply e) v ∧ y.engine.config = x.engine.config := by
  have hverdict : validate now drift d.block = validate d.now drift d.block := hchecked.validate_eq
  have hfits : Faithful.fits (Unreliable b.Contents) u.store.nextSeq e.block :=
    Faithful.fits_of_room hm.2.1 hroom
  obtain ⟨v, hv, hreply'⟩ := hm.reply (d := e) h.sound' fun _ => hfits
  rw [← hdrift] at hsame
  cases hvalid : validate now drift d.block with
  | error fault =>
    have hrefused : x.refusal? d.now d.block = some (.validation fault) := by
      simp only [refusal?, hdrift, ← hverdict, hvalid]
    rw [hsame.refusal?_eq, h.alike.refusal?_eq] at hrefused
    obtain ⟨hr, rfl⟩ := hreply'.of_refused hrefused
    have hrun : Node.importBlock t (d, .error (.validation fault)) n =
        .ok (t.hear (m.reply e)) n := by
      rw [hr]
      rfl
    exact ⟨n, x, _, hrun, hn, hv, h.noted _, hreply', rfl⟩
  | ok work =>
    rw [← h.alike.store, ← hsame.block_eq] at hfits
    obtain ⟨y, hy, hreply⟩ := hn.reply (d := d) h.sound fun _ => hfits
    obtain ⟨hr, htwins⟩ := h.replies hreply hreply' hsame
    have hrun : Node.importBlock t (d, .ok work) n = .ok (t.hear (m.reply e)) (n.deliver d) := by
      rw [importBlock_eq hreply, hr]
    exact ⟨n.deliver d, y, v, hrun, hy, hv, htwins, hreply', hreply.config_eq⟩

/-- Side by side, one node imports the blocks and the other one hears of them all. -/
theorem Twins.foldlM_importBlock (h : Twins x u) (hn : Node.Shows False n x)
    (hm : Node.Shows False m u) (hdrift : x.engine.config.maxFutureDrift = drift)
    (hchecked : ∀ d ∈ ds, SameVerdict drift ⟨now, d.block⟩ d)
    (hsame : List.Forall₂ (SameVerdict drift) ds es) (hroom : m.HasRoom es) (t : Tally) :
    ∃ k y v, (checked now drift ds).foldlM Node.importBlock t n =
        .ok ((m.replies es).foldl Tally.hear t) k ∧
      Node.Shows False k y ∧ Node.Shows False (m.feed es) v ∧ Twins y v ∧
        u.RepliesAll es (m.replies es) v := by
  induction hsame generalizing n m x u t with
  | nil => exact ⟨n, x, u, rfl, hn, hm, h, .done⟩
  | cons hde _ ih =>
    obtain ⟨hfirst, hrest⟩ := hroom
    obtain ⟨hcheck, hchecks⟩ := List.forall_mem_cons.mp hchecked
    obtain ⟨k, y, v, hstep, hy, hv, htwins, hreply, hconfig⟩ :=
      h.importBlock hn hm hdrift hcheck hde hfirst t
    obtain ⟨l, z, w, hrun, hz, hw, htwins, hall⟩ :=
      ih htwins hy hv (hconfig ▸ hdrift) hchecks hrest (t.hear _)
    refine ⟨l, z, w, ?_, hz, hw, htwins, .next hreply hall⟩
    simp only [Node.replies, List.foldl_cons]
    simp only [checked, List.map_cons, List.foldlM_cons, bind, EStateM.bind, hstep]
    exact hrun

theorem Twins.importAll (h : Twins x u) (hn : Node.Shows False n x) (hm : Node.Shows False m u)
    (hchecked : ∀ d ∈ ds, SameVerdict x.engine.config.maxFutureDrift ⟨now, d.block⟩ d)
    (hsame : List.Forall₂ (SameVerdict x.engine.config.maxFutureDrift) ds es)
    (hroom : m.HasRoom es) :
    ∃ k y v, Node.importAll now ds n = .ok (.ofReplies (m.replies es)) k ∧
      Node.Shows False k y ∧ Node.Shows False (m.feed es) v ∧ Twins y v ∧
        u.RepliesAll es (m.replies es) v := by
  rw [importAll_eq, hn.1]
  exact h.foldlM_importBlock hn hm rfl hchecked hsame hroom {}

/-- Two processes, one after the other, import a part each. -/
def importTwice (first second : Int) (xs ys : List Delivery) :
    NodeM (Unreliable b.Contents) Tally := do
  let t ← Node.importAll first xs
  restart
  let u ← Node.importAll second ys
  return t.plus u

theorem Twins.importTwice {first second : Int} {es fs : List Delivery} (h : Twins x u)
    (hn : Node.Shows False n x) (hm : Node.Shows False m u)
    (hdrift : x.engine.config.maxFutureDrift = drift)
    (hfirst : ∀ d ∈ xs, SameVerdict drift ⟨first, d.block⟩ d)
    (hsecond : ∀ d ∈ ys, SameVerdict drift ⟨second, d.block⟩ d)
    (hxs : List.Forall₂ (SameVerdict drift) xs es) (hys : List.Forall₂ (SameVerdict drift) ys fs)
    (hroom : m.HasRoom (es ++ fs)) :
    ∃ k, Node.importTwice first second xs ys n = .ok (.ofReplies (m.replies (es ++ fs))) k ∧
      k.Matches (m.feed (es ++ fs)) := by
  obtain ⟨hroom, hroom'⟩ := hasRoom_append.mp hroom
  subst hdrift
  obtain ⟨k, y, v, hrun, hk, hv, htwins, hall⟩ := h.importAll hn hm hfirst hxs hroom
  have hconfig : y.engine.config = x.engine.config := by
    rw [htwins.alike.config, hall.config_eq, h.alike.config]
  have hrestart := ends_restart htwins.sound k hk
  cases hopen : restart k with
  | error e l =>
    simp only [hopen] at hrestart
    obtain ⟨-, -, hfalse⟩ := hrestart
    exact hfalse.elim
  | ok _ l =>
    simp only [hopen] at hrestart
    obtain ⟨z, hz, rfl⟩ := hrestart
    obtain ⟨k', y', v', hrun', hk', hv', htwins', -⟩ :=
      htwins.reopened.importAll hz hv (hconfig ▸ hsecond) (hconfig ▸ hys) hroom'
    rw [feed_append, replies_append, Tally.ofReplies_append]
    refine ⟨k', ?_, htwins'.matches hk' hv'⟩
    simp only [Node.importTwice, bind, EStateM.bind, hrun, hopen, hrun']
    rfl

/-- An import answers, and leaves what handing in all its blocks one after another would leave.
Its summary adds up to the blocks, to what has been resolved and to what would have been
rejected. A second process that goes on from any point makes no difference. -/
theorem imports_of_starts (hn : Starts n) (hcalm : n.store.outages = []) (hroom : n.HasRoom es)
    (hchecked : ∀ d ∈ ds, SameVerdict n.engine.config.maxFutureDrift ⟨now, d.block⟩ d)
    (hsame : List.Forall₂ (SameVerdict n.engine.config.maxFutureDrift) ds es) :
    ∃ t k, Node.importAll now ds n = .ok t k ∧ k.Matches (n.feed es) ∧
      t.accepted + t.orphaned + t.duplicate + t.rejected = ds.length ∧
      (∃ before after, n.Lists before ∧ k.Lists after ∧ after.countP Link.isResolved =
        before.countP Link.isResolved + t.accepted + t.promoted) ∧
      t.rejected = (n.replies es).countP isRejection ∧
      ∀ first second xs ys,
        (∀ d ∈ xs, SameVerdict n.engine.config.maxFutureDrift ⟨first, d.block⟩ d) →
        (∀ d ∈ ys, SameVerdict n.engine.config.maxFutureDrift ⟨second, d.block⟩ d) →
        List.Forall₂ (SameVerdict n.engine.config.maxFutureDrift) (xs ++ ys) es →
          ∃ l, Node.importTwice first second xs ys n = .ok t l ∧ l.Matches k := by
  obtain ⟨x, hx, hsound, hfresh⟩ := hn.exists_fresh
  have hx := hx.of_calm hcalm
  have htip : x.engine.tip? = x.store.bestLink? := by
    rw [hfresh]
    rfl
  have htwins : Twins x x := ⟨⟨rfl, rfl, rfl⟩, hsound, htip, hsound, htip⟩
  rw [hx.1] at hchecked hsame ⊢
  obtain ⟨k, y, v, hrun, hy, hv, hyv, hall⟩ := htwins.importAll hx hx hchecked hsame hroom
  have hmatches := hyv.matches hy hv
  have htally : Tally.ofReplies (n.replies es) = v.engine.metrics.tally := by
    have hempty : x.engine.metrics.tally = {} := by
      rw [hfresh]
      rfl
    rw [hall.tally_eq, hempty, Tally.ofReplies]
  refine ⟨_, k, hrun, hmatches, ?_, ?_, ?_, ?_⟩
  · rw [Tally.ofReplies, hall.total, hsame.length_eq]
    simp
  · obtain ⟨published, hbalanced⟩ := hall.balanced hsound (.start hsound hfresh)
    refine ⟨x.store.links, v.store.links, hx.lists hsound, ?_, ?_⟩
    · rw [← hyv.alike.store]
      exact hy.lists hyv.sound
    · rw [htally]
      exact hbalanced.countP_isResolved hsound hyv.sound'
  · rw [Tally.ofReplies, Tally.rejected_foldl_hear]
    simp
  · intro first second xs ys hfirst hsecond hparts
    -- the blocks that are handed in part where the import does
    have hxs := (List.forall₂_take_append es xs ys hparts.flip).flip
    have hys := (List.forall₂_drop_append es xs ys hparts.flip).flip
    obtain ⟨l, hl, hmatch⟩ := htwins.importTwice hx hx rfl hfirst hsecond hxs hys
      (by rwa [List.take_append_drop])
    rw [List.take_append_drop] at hl hmatch
    exact ⟨l, hl, hmatch.trans hmatches.symm⟩

end Imports

section Sessions

/-- An orphan that the next block completes, that block once more, one without transactions, and
a second root. -/
def mixed : List Delivery :=
  [⟨0, .second⟩, ⟨0, .first⟩, ⟨0, .first⟩, ⟨0, .easy .zero []⟩, ⟨0, .easy .zero [.coinbase 9]⟩]

theorem mixed_computed :
    (match Node.importAll 0 mixed (started {} []) with
      | .ok t _ => some t
      | .error .. => none) = some ⟨1, 1, 1, 1, 2⟩ := by
  decide +kernel

theorem sameVerdict_mixed {now : Int} (hnow : 0 ≤ now) :
    ∀ d ∈ mixed, SameVerdict 7200 ⟨now, d.block⟩ d := by
  have htimes : ∀ d ∈ mixed, d.now = 0 ∧ d.block.header.timestamp = 0 := by
    simp [mixed, Block.first, Block.second, Block.easy]
  have hlatest {now : Int} (hnow : 0 ≤ now) : ¬ Validation.latestTime now 7200 < 0 := by
    unfold Validation.latestTime
    omega
  intro d hd
  obtain ⟨hd, ht⟩ := htimes d hd
  have hzero : d.block.header.timestamp.toInt = 0 := by
    rw [ht]
    rfl
  refine ⟨rfl, ?_⟩
  simp only [Validation.checkTimestamp, hzero, hd, hlatest hnow, hlatest (Int.le_refl 0), if_false]

/-- A second process goes on while the orphan waits. -/
theorem imports_mixed : ∃ k l, Node.importAll 0 mixed (started {} []) = .ok ⟨1, 1, 1, 1, 2⟩ k ∧
    k.Matches ((started {} []).feed mixed) ∧
    Node.importTwice 0 7 (mixed.take 1) (mixed.drop 1) (started {} []) = .ok ⟨1, 1, 1, 1, 2⟩ l ∧
    l.Matches k := by
  have hstarts : Starts (b := .arena) (started {} []) :=
    .inl (opened_started trivial (by decide))
  have hsame : List.Forall₂ (SameVerdict 7200) mixed mixed :=
    List.forall₂_same.mpr fun _ _ => ⟨rfl, rfl⟩
  obtain ⟨t, k, hrun, hmatches, -, -, -, htwice⟩ :=
    imports_of_starts hstarts rfl (hasRoom_arena _ mixed) (sameVerdict_mixed (Int.le_refl 0)) hsame
  obtain ⟨l, hl, hlk⟩ := htwice 0 7 (mixed.take 1) (mixed.drop 1)
    (fun d hd => sameVerdict_mixed (Int.le_refl 0) d (List.mem_of_mem_take hd))
    (fun d hd => sameVerdict_mixed (by decide) d (List.mem_of_mem_drop hd)) hsame
  have htally := mixed_computed
  rw [hrun] at htally
  cases htally
  exact ⟨k, l, hrun, hmatches, hl, hlk⟩

end Sessions

end Node

end BlockTree
