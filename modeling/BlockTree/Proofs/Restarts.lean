import BlockTree.Proofs.Convergence
import BlockTree.Proofs.Following
import BlockTree.Proofs.Replies

/-! Engines that are dropped and opened again. What is written says all that an engine
knows, so its answers do not tell how often, or after which blocks, it was opened. -/

namespace BlockTree

inductive Event where
  | block (d : Delivery)
  /-- The engine is dropped, and the store is opened again with an engine on it. -/
  | restart

def deliveries : List Event → List Delivery
  | [] => []
  | .block d :: es => d :: deliveries es
  | .restart :: es => deliveries es

namespace Backing

def reopened : (b : Backing) → b.Contents → b.Contents
  | .arena, a => a
  | .pool, p => p
  | .shelf, s => Shelf.reopen s

/-- The blocks can be encoded and their places counted, where the store does that. -/
def Takes : Backing → List Block → Prop
  | .arena, _ | .pool, _ => True
  | .shelf, blocks => (∀ block ∈ blocks, block.Writable) ∧ blocks.length < 2 ^ 64

variable {b : Backing}

theorem drifts_reopened (s : b.Contents) : Medium.drifts s (b.reopened s) := by
  cases b with
  | arena => rfl
  | pool => rfl
  | shelf =>
    refine ⟨rfl, fun k l hl => ?_⟩
    simp [reopened, Shelf.reopen] at hl

theorem Takes.fits {blocks : List Block} {block : Block} {seq : Nat} (h : b.Takes blocks)
    (hmem : block ∈ blocks) (hseq : seq < blocks.length) :
    Faithful.fits (Unreliable b.Contents) seq block := by
  cases b with
  | arena => trivial
  | pool => trivial
  | shelf => exact ⟨h.1 block hmem, Nat.lt_of_le_of_lt hseq h.2⟩

end Backing

namespace Node

section Runs

variable {b : Backing}

def restart : NodeM (Unreliable b.Contents) Unit := do
  modify fun n => { n with store := { n.store with store := b.reopened n.store.store } }
  reopen (← get).engine.config

/-- Answers what came back for each of the blocks. -/
def live : List Event → NodeM (Unreliable b.Contents) (List (Except Error Outcome))
  | [] => return []
  | .block d :: es => do
    let reply ← attempt (submit d.now d.block)
    return reply :: (← live es)
  | .restart :: es => do
    restart
    live es

end Runs

/-- The same block at times at which it is equally early or late. -/
structure SameVerdict (drift : Int) (d e : Delivery) : Prop where
  block_eq : d.block = e.block
  verdict_eq : Validation.checkTimestamp d.now drift d.block =
    Validation.checkTimestamp e.now drift e.block

/-- Two nodes, on stores of any two kinds, that no read tells apart. Their tips are the
same, and so are the orphans in their order. -/
structure Matches {b c : Backing} (n : b.Ledger) (m : c.Ledger) : Prop where
  answers : ∀ {α : Type} (call : Call α), call.onlyReads → ∀ v, n.Tells call v ↔ m.Tells call v
  nextSeq : b.nextSeq n.store.store = c.nextSeq m.store.store
  orphans : n.engine.orphans = m.engine.orphans
  tip : n.engine.tip? = m.engine.tip?

section Twins

variable {x y u v : Node Arena} {d e : Delivery} {r r' : Except Error Outcome}
  {change? change?' : Option BranchChange}

theorem SameVerdict.validate_eq {drift : Int} (h : SameVerdict drift d e) :
    validate d.now drift d.block = validate e.now drift e.block := by
  obtain ⟨hblock, hverdict⟩ := h
  unfold validate
  rw [hverdict, hblock]

theorem SameVerdict.refusal?_eq (h : SameVerdict x.engine.config.maxFutureDrift d e) :
    x.refusal? d.now d.block = x.refusal? e.now e.block := by
  unfold refusal?
  rw [h.validate_eq, h.block_eq]

theorem Moves.unique {change change' : BranchChange} (h : x.Moves change) (h' : u.Moves change')
    (hstore : x.store = u.store) (htip : x.engine.tip? = u.engine.tip?) (hx : x.store.Ordered) :
    change = change' := by
  have hold : change.old? = change'.old? := by rw [h.old, htip, h'.old]
  have hnew : change.new = change'.new := by
    have hbest := h.best
    rw [hstore, h'.best] at hbest
    exact (Option.some.inj hbest).symm
  have hcommon : change.common? = change'.common? := by
    cases ht : x.engine.tip? with
    | none => rw [h.common_none ht, h'.common_none (htip ▸ ht)]
    | some old =>
      obtain ⟨oldPath, newPath, delta, hop, hnp, hparts, hc⟩ := h.common_some old ht
      obtain ⟨oldPath', newPath', delta', hop', hnp', hparts', hc'⟩ :=
        h'.common_some old (htip ▸ ht)
      rw [← hstore] at hop' hnp'
      rw [← hnew] at hnp'
      rw [← hop.unique hx hop', ← hnp.unique hx hnp'] at hparts'
      rw [hc, hc', hparts.ancestor_unique hop hparts']
  cases change
  cases change'
  simp_all

theorem Settles.unique (h : x.Settles change? y) (h' : u.Settles change?' v)
    (hstore : x.store = u.store) (htip : x.engine.tip? = u.engine.tip?) (hx : x.store.Ordered) :
    change? = change?' := by
  -- the tip moves if and only if it is not the best link
  cases change? with
  | none =>
    cases change?' with
    | none => rfl
    | some change' =>
      have haway := h'.2.away
      rw [← htip, h.2, hstore, h'.2.best] at haway
      exact absurd rfl haway
  | some change =>
    cases change?' with
    | none =>
      have haway := h.2.away
      rw [htip, h'.2, ← hstore, h.2.best] at haway
      exact absurd rfl haway
    | some change' => rw [h.2.unique h'.2 hstore htip hx]

theorem Submitted.unique {o o' : Outcome} (h : x.Submitted d.now d.block o y)
    (h' : u.Submitted e.now e.block o' v) (hxu : Alike x u)
    (htip : x.engine.tip? = u.engine.tip?) (hx : x.Sound) (hblock : d.block = e.block) :
    o = o' := by
  have htaken := hxu.taken d.block
  have hchange : o.change? = o'.change? := by
    refine h.settles.unique (hblock ▸ h'.settles) htaken.store ?_
      (hx.taken (hx.fresh h.admitted)).arena.ordered
    rw [tip_taken, tip_taken, htip]
  have hhash : o.hash = o'.hash := by rw [h.hash_eq, h'.hash_eq, hblock]
  have hstatus : o.status = o'.status := by rw [h.status_eq, h'.status_eq, hxu.store, hblock]
  have hpromoted : o.promoted = o'.promoted := by
    rw [h.promoted_eq, h'.promoted_eq, hxu.store, hblock]
  cases o
  cases o'
  simp_all

/-- Sound nodes that differ at most in the listeners and the counts. -/
structure Twins (x u : Node Arena) : Prop where
  alike : Alike x u
  sound : x.Sound
  settled : x.engine.tip? = x.store.bestLink?
  sound' : u.Sound
  settled' : u.engine.tip? = u.store.bestLink?

theorem Twins.tip_eq (h : Twins x u) : x.engine.tip? = u.engine.tip? := by
  rw [h.settled, h.settled', h.alike.store]

/-- A node that hears of the same block says the same of it. -/
theorem Twins.replies (h : Twins x u) (hx : x.Replies d r y) (hu : u.Replies e r' v)
    (hde : SameVerdict x.engine.config.maxFutureDrift d e) : r = r' ∧ Twins y v := by
  have hrefusal : x.refusal? d.now d.block = u.refusal? e.now e.block :=
    hde.refusal?_eq.trans h.alike.refusal?_eq
  have htwins (halike : Alike y v) : Twins y v :=
    ⟨halike, (hx.sound h.sound).1, hx.settled h.settled, (hu.sound h.sound').1,
      hu.settled h.settled'⟩
  cases hx with
  | refused hrefused =>
    cases hu with
    | refused hrefused' =>
      rw [hrefused, hrefused', Option.some.injEq] at hrefusal
      exact ⟨congrArg _ hrefusal, htwins ⟨h.alike.store, h.alike.orphans, h.alike.config⟩⟩
    | submitted ho' => rw [hrefused, ho'.admitted] at hrefusal; cases hrefusal
  | submitted ho =>
    cases hu with
    | refused hrefused' => rw [hrefused', ho.admitted] at hrefusal; cases hrefusal
    | submitted ho' =>
      have halike : Alike (x.taken d.block) (u.taken e.block) :=
        hde.block_eq ▸ h.alike.taken d.block
      exact ⟨congrArg _ (ho.unique ho' h.alike h.tip_eq h.sound hde.block_eq),
        htwins (ho.settles.alike.symm.trans (halike.trans ho'.settles.alike))⟩

/-- The queue of orphans and the tip can be read off the store. -/
theorem Twins.reopened (h : Twins x u) :
    Twins { x with engine := .ofArena x.engine.config x.store } u where
  alike := ⟨h.alike.store, h.sound.queue.symm.trans h.alike.orphans, h.alike.config⟩
  sound := h.sound.reopened h.sound.cap
  settled := rfl
  sound' := h.sound'
  settled' := h.settled'

end Twins

theorem Replies.nextSeq_le {x y : Node Arena} {d : Delivery} {r : Except Error Outcome}
    (h : x.Replies d r y) : y.store.nextSeq ≤ x.store.nextSeq + 1 := by
  cases h with
  | refused => exact Nat.le_succ _
  | submitted ho =>
    rw [ho.settles.store_eq, taken, filed, Arena.nextSeq_file, nextSeq_cleared]

section Lives

variable {b c : Backing} {config : ConsensusConfig} {n k : b.Ledger} {m : c.Ledger}
  {x u : Node Arena} {es : List Event} {ds : List Delivery}

theorem attempt_submit (n : b.Ledger) (d : Delivery) :
    attempt (submit d.now d.block) n = .ok (n.reply d) (n.deliver d) := by
  unfold attempt reply deliver after
  cases submit d.now d.block n <;> rfl

theorem ends_restart (hx : x.Sound) :
    Ends (Node.Shows False) (restart (b := b)) x
      (fun _ y => y = { x with engine := .ofArena x.engine.config x.store })
      fun _ _ => False := by
  unfold restart
  refine Ends.bind fun n hn => ⟨x, ⟨hn.1, ?_, ?_⟩, ?_⟩
  · exact Faithful.holds_drift hn.2.1 (Backing.drifts_reopened n.store.store)
  · exact fun ht => ht.elim (Backing.untroubled _) fun hflawed => hn.2.2 (.inr hflawed)
  · refine Ends.get fun n hn => ?_
    rw [hn.1]
    refine (ends_reopen hx _).mono (fun _ _ h => h.1) fun _ _ h => ?_
    exact h.2.elim (Nat.ne_of_gt hx.cap) id

/-- Side by side, the node that is opened again now and then and the other one hear of
the same blocks. -/
theorem Twins.live (h : Twins x u) (hn : Node.Shows False n x) (hm : Node.Shows False m u)
    (hsame : List.Forall₂ (SameVerdict x.engine.config.maxFutureDrift) (deliveries es) ds)
    (hfits : ∀ d ∈ deliveries es, ∀ seq < x.store.nextSeq + (deliveries es).length,
      Faithful.fits (Unreliable b.Contents) seq d.block ∧
        Faithful.fits (Unreliable c.Contents) seq d.block) :
    ∃ k y v, live es n = .ok (m.replies ds) k ∧ Node.Shows False k y ∧
      Node.Shows False (m.feed ds) v ∧ Twins y v := by
  induction es generalizing n m x u ds with
  | nil =>
    cases hsame
    exact ⟨n, x, u, rfl, hn, hm, h⟩
  | cons event es ih =>
    cases event with
    | block d =>
      obtain _ | @⟨_, e, _, ds, hde, hsame⟩ := hsame
      obtain ⟨hfirst, hfirst'⟩ :=
        hfits d List.mem_cons_self x.store.nextSeq (by simp [deliveries])
      obtain ⟨y, hy, hreply⟩ := hn.reply (d := d) h.sound fun _ => hfirst
      rw [h.alike.store, hde.block_eq] at hfirst'
      obtain ⟨v, hv, hreply'⟩ := hm.reply (d := e) h.sound' fun _ => hfirst'
      obtain ⟨hr, htwins⟩ := h.replies hreply hreply' hde
      have hrest : ∀ d ∈ deliveries es, ∀ seq < y.store.nextSeq + (deliveries es).length,
          Faithful.fits (Unreliable b.Contents) seq d.block ∧
            Faithful.fits (Unreliable c.Contents) seq d.block := by
        intro d' hd' seq hseq
        have hle := hreply.nextSeq_le
        refine hfits d' (List.mem_cons_of_mem _ hd') seq ?_
        simp only [deliveries, List.length_cons]
        omega
      obtain ⟨k, z, w, hrun, hz, hw, htwins⟩ := ih htwins hy hv (hreply.config_eq ▸ hsame) hrest
      refine ⟨k, z, w, ?_, hz, hw, htwins⟩
      simp only [Node.live, bind, EStateM.bind, attempt_submit, hrun, hr]
      rfl
    | restart =>
      have hrestart := ends_restart (b := b) h.sound n hn
      cases hrun : restart n with
      | error e m =>
        simp only [hrun] at hrestart
        obtain ⟨-, -, hfalse⟩ := hrestart
        exact hfalse.elim
      | ok _ n' =>
        simp only [hrun] at hrestart
        obtain ⟨y, hy, rfl⟩ := hrestart
        obtain ⟨k, z, w, hrest, hz, hw, htwins⟩ := ih h.reopened hy hm hsame hfits
        refine ⟨k, z, w, ?_, hz, hw, htwins⟩
        simp only [Node.live, bind, EStateM.bind, hrun, hrest]

theorem Twins.matches (h : Twins x u) (hn : Node.Shows False n x)
    (hm : Node.Shows False m u) : n.Matches m where
  answers call hreads v := h.alike.tells_iff h.sound hn hm hreads v
  nextSeq := by rw [hn.nextSeq, hm.nextSeq, h.alike.store]
  orphans := by rw [hn.1, hm.1, h.alike.orphans]
  tip := by rw [hn.1, hm.1, h.tip_eq]

theorem twins_blank (hcap : 1 ≤ config.maxOrphans) : Twins (blank config) (blank config) where
  alike := ⟨rfl, rfl, rfl⟩
  sound := sound_blank hcap
  settled := rfl
  sound' := sound_blank hcap
  settled' := rfl

/-- However often an engine is dropped and opened again with the same settings, it answers
as one that is never dropped, each on a store of any kind, and ends up with the same links,
orphans and tip. -/
theorem live_eq_replies (hn : Opened (· = config) n) (hcalm : n.store.outages = [])
    (hm : Opened (· = config) m) (hcalm' : m.store.outages = [])
    (hsame : List.Forall₂ (SameVerdict config.maxFutureDrift) (deliveries es) ds)
    (htakes : b.Takes ((deliveries es).map Delivery.block))
    (htakes' : c.Takes ((deliveries es).map Delivery.block)) :
    ∃ k, live es n = .ok (m.replies ds) k ∧ k.Matches (m.feed ds) := by
  obtain ⟨hshows, hsound⟩ := hn.shows_calm hcalm
  obtain ⟨hshows', -⟩ := hm.shows_calm hcalm'
  have hfits : ∀ d ∈ deliveries es,
      ∀ seq < (blank config).store.nextSeq + (deliveries es).length,
        Faithful.fits (Unreliable b.Contents) seq d.block ∧
          Faithful.fits (Unreliable c.Contents) seq d.block := by
    intro d hd seq hseq
    have hlt : seq < ((deliveries es).map Delivery.block).length := by simpa using hseq
    have hmem := List.mem_map_of_mem (f := Delivery.block) hd
    exact ⟨htakes.fits hmem hlt, htakes'.fits hmem hlt⟩
  obtain ⟨k, y, v, hrun, hy, hv, htwins⟩ :=
    (twins_blank hsound.cap).live hshows hshows' hsame hfits
  exact ⟨k, hrun, htwins.matches hy hv⟩

end Lives

/-- A node on an empty shelf. -/
def shelved (config : ConsensusConfig) : Backing.shelf.Ledger :=
  ⟨.ofArena config {}, ⟨({} : Shelf), []⟩⟩

theorem opened_shelved : Opened (· = crowded) (shelved crowded) := by
  refine ⟨crowded, ⟨({} : Shelf), []⟩, rfl, ⟨rfl, fun _ _ h => h⟩, ?_⟩
  rfl

/-- A node on an empty pool. -/
def pooled (config : ConsensusConfig) : Backing.pool.Ledger :=
  ⟨.ofArena config {}, ⟨({} : Pool), []⟩⟩

theorem opened_pooled : Opened (· = crowded) (pooled crowded) := by
  have hvalues : ({} : Pool).links.values = [] := rfl
  have hnone : ({} : Pool).orphans = [] := by
    rw [Pool.orphans, hvalues, List.filter_nil, List.mergeSort_nil]
  refine ⟨crowded, ⟨({} : Pool), []⟩, rfl, rfl, ?_⟩
  exact Engine.ofStore_eq (by decide) rfl (congrArg (EStateM.Result.ok · _) hnone)

/-- The second block makes room for the rival while the engine is closed twice. -/
def interruptions : List Event :=
  [.block ⟨0, .second⟩, .restart, .block ⟨0, .rival⟩, .restart, .block ⟨0, .first⟩]

def uninterrupted : List Delivery :=
  [⟨5, .second⟩, ⟨7, .rival⟩, ⟨9, .first⟩]

theorem live_interruptions : ∃ k,
    live interruptions (shelved crowded) = .ok ((pooled crowded).replies uninterrupted) k ∧
      k.Matches ((pooled crowded).feed uninterrupted) := by
  refine live_eq_replies opened_shelved rfl opened_pooled rfl ?_ ?_ trivial
  · exact .cons ⟨rfl, rfl⟩ (.cons ⟨rfl, rfl⟩ (.cons ⟨rfl, rfl⟩ .nil))
  · refine ⟨?_, by decide⟩
    simpa [interruptions, deliveries] using
      ⟨Block.writable_easy _ 1, Block.writable_easy _ 2, Block.writable_easy _ 0⟩

end Node

end BlockTree
