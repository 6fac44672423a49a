import BlockTree.Proofs.Walks
import BlockTree.Spending

/-! The check of what a block spends goes through just when each of its claims is covered, by
an earlier transaction of the block or by its branch, and none is made twice. So the claims
of a block that was accepted are its own alone, and those that reach back to the branch are
free there. -/

namespace BlockTree

def Transaction.claims (tx : Transaction) : List OutPoint :=
  tx.inputs.map TxInput.claimed

namespace Block

def claims (block : Block) : List OutPoint :=
  block.transactions.flatMap Transaction.claims

/-- The claims of transactions on those before them, of which some hashes are known. -/
def inwardFrom : List Hash → List Transaction → List OutPoint
  | _, [] => []
  | seen, tx :: txs =>
    (tx.claims.filter fun p => p.txHash ∈ seen) ++ inwardFrom (tx.hash :: seen) txs

def inward (block : Block) : List OutPoint :=
  inwardFrom [] block.transactions

theorem isSome_claimerOf? {block : Block} {p : OutPoint} :
    (block.claimerOf? p).isSome ↔ p ∈ block.claims := by
  simp only [claimerOf?, claims, Transaction.claimerOf?, Transaction.claims,
    List.findSome?_isSome_iff, List.find?_isSome, List.mem_flatMap, List.mem_map, beq_iff_eq]

end Block

variable {σ : Type} [Medium σ] [Faithful σ] {F : Prop} {a : Arena} {α β : Type} {e : Error}

/-- A computation that leaves what is stored alone, and unless a call fails ends with an
answer that `ok` allows if there is one. -/
def Solves (F : Prop) (act : StoreM σ α) (a : Arena) (ok : α → Prop) : Prop :=
  Ends (Backed F) act a (fun v b => b = a ∧ ok v) fun _ b => b = a ∧ (F ∨ ∀ v, ¬ ok v)

namespace Solves

variable {act : StoreM σ α} {ok ok' : α → Prop}

theorem pure {v : α} (h : ok v) : Solves (σ := σ) F (pure v) a ok :=
  Ends.pure ⟨rfl, h⟩

theorem throw (h : ∀ v, ¬ ok v) : Solves (σ := σ) F (throw e) a ok :=
  Ends.throw ⟨rfl, .inr h⟩

theorem congr (h : Solves F act a ok) (hiff : ∀ v, ok v ↔ ok' v) : Solves F act a ok' := by
  obtain rfl : ok = ok' := funext fun v => propext (hiff v)
  exact h

theorem bind {next : α → StoreM σ β} {ok' : β → Prop} (h : Solves F act a ok)
    (hneeds : ∀ w, ok' w → ∃ v, ok v) (hnext : ∀ v, ok v → Solves F (next v) a ok') :
    Solves F (act >>= next) a ok' := by
  refine Ends.bind (Ends.mono h ?_ ?_)
  · rintro v _ ⟨rfl, hv⟩
    exact hnext v hv
  · -- each answer to the whole needs one to the first part, which has none
    rintro e b ⟨hb, hbad⟩
    refine ⟨hb, hbad.imp_right fun hnone w hw => ?_⟩
    obtain ⟨v, hv⟩ := hneeds w hw
    exact hnone v hv

end Solves

theorem Reads.solves {act : StoreM σ α} {next : α → StoreM σ β} {v : α} {ok : β → Prop}
    (h : Reads F act a (· = v)) (hnext : Solves F (next v) a ok) :
    Solves F (act >>= next) a ok := by
  refine Ends.bind (Ends.mono h ?_ fun _ _ hb => ⟨hb.1, .inl hb.2.1⟩)
  rintro _ _ ⟨rfl, rfl⟩
  exact hnext

namespace Spending

/-- The branch that a block is checked against, the latest link first. -/
def Branch (a : Arena) (head? : Option Link) (path : List Link) : Prop :=
  match head? with
  | none => path = []
  | some head => a.Lineage head path

variable {verify : Verifier} {head? : Option Link} {path : List Link} {block : Block}
  {earlier : List Transaction} {input : TxInput} {output : TxOutput} {txHash : Hash}
  {tx : Transaction}

/-- The first transaction with the hash in the first block that has one. -/
def onBranch? (path : List Link) (txHash : Hash) : Option Transaction :=
  (path.find? fun l => l.block.containsTransaction txHash).bind fun l =>
    l.block.findTransaction? txHash

/-- Transactions of the block itself, the latest first, go before those of the branch. -/
def source? (path : List Link) (earlier : List Transaction) (txHash : Hash) :
    Option Transaction :=
  (earlier.find? fun tx => tx.hash == txHash).or (onBranch? path txHash)

def outputOf? (input : TxInput) (tx : Transaction) : Option TxOutput :=
  tx.outputs[input.claimed.index.toNat]?

/-- The output that an input claims. It has to be free on the branch if it comes from there. -/
structure Offers (path : List Link) (earlier : List Transaction) (input : TxInput)
    (output : TxOutput) : Prop where
  output_eq : (source? path earlier input.claimed.txHash).bind (outputOf? input) = some output
  free : (earlier.find? fun tx => tx.hash == input.claimed.txHash) = none →
    ∀ l ∈ path, input.claimed ∉ l.block.claims

def Covered (verify : Verifier) (path : List Link) (earlier : List Transaction)
    (input : TxInput) : Prop :=
  ∃ output, Offers path earlier input output ∧ verify input output

/-- Each transaction is covered by the branch and the transactions that go before it. -/
def CoveredFrom (verify : Verifier) (path : List Link) (earlier txs : List Transaction) : Prop :=
  ∀ before tx after, txs = before ++ tx :: after →
    ∀ input ∈ tx.inputs, Covered verify path (before.reverse ++ earlier) input

theorem Offers.unique {output' : TxOutput} (h : Offers path earlier input output)
    (h' : Offers path earlier input output') : output = output' :=
  Option.some.inj (h.output_eq.symm.trans h'.output_eq)

theorem coveredFrom_nil : CoveredFrom verify path earlier [] := by
  intro before tx after he
  simp at he

theorem coveredFrom_cons {txs : List Transaction} :
    CoveredFrom verify path earlier (tx :: txs) ↔
      (∀ input ∈ tx.inputs, Covered verify path earlier input) ∧
        CoveredFrom verify path (tx :: earlier) txs := by
  constructor
  · intro h
    refine ⟨h [] tx txs rfl, fun before u after he => ?_⟩
    simpa using h (tx :: before) u after (by rw [he, List.cons_append])
  · rintro ⟨hhead, hrest⟩ before u after he
    cases before with
    | nil =>
      cases he
      exact hhead
    | cons t before =>
      cases he
      simpa using hrest before u after rfl

/-- Claims that reach back to the branch are free there. -/
theorem CoveredFrom.free {txs : List Transaction} (h : CoveredFrom verify path earlier txs) :
    ∀ p ∈ txs.flatMap Transaction.claims,
      p ∉ Block.inwardFrom (earlier.map Transaction.hash) txs → ∀ l ∈ path, p ∉ l.block.claims := by
  induction txs generalizing earlier with
  | nil => simp
  | cons tx txs ih =>
    obtain ⟨hhead, hrest⟩ := coveredFrom_cons.mp h
    intro p hp hinward
    rw [Block.inwardFrom, List.mem_append, not_or] at hinward
    obtain ⟨hhere, hbelow⟩ := hinward
    rw [List.flatMap_cons, List.mem_append] at hp
    rcases hp with hp | hp
    · obtain ⟨input, hinput, rfl⟩ := List.mem_map.mp hp
      obtain ⟨output, hoffers, -⟩ := hhead input hinput
      refine hoffers.free (List.find?_eq_none.mpr fun t ht hhash => hhere ?_)
      have hseen : input.claimed.txHash ∈ earlier.map Transaction.hash :=
        List.mem_map.mpr ⟨t, ht, by simpa using hhash⟩
      exact List.mem_filter.mpr ⟨hp, by simpa using hseen⟩
    · exact ih hrest p hp hbelow

/-- What was already seen of a block is kept under its hashes. -/
def seen (earlier : List Transaction) : List (Hash × Transaction) :=
  earlier.map fun tx => (tx.hash, tx)

theorem earlier?_seen : earlier? (seen earlier) txHash =
    earlier.find? fun tx => tx.hash == txHash := by
  rw [earlier?, seen, List.find?_map, Option.map_map]
  exact Option.map_id'

section Steps

variable {σ : Type} [Store σ]

def findOutput (index : Nat) (head? : Option Link) (seen : List (Hash × Transaction))
    (input : TxInput) : StoreM σ TxOutput :=
  match earlier? seen input.claimed.txHash with
  | some tx => MonadExcept.ofExcept (claimedOutput index tx input)
  | none => freeOutput index head? input

theorem checkInputs_cons {index : Nat} {seen : List (Hash × Transaction)}
    {claimed : List OutPoint} {inputs : List TxInput} :
    checkInputs (σ := σ) verify index head? seen claimed (input :: inputs) =
      if input.claimed ∈ claimed then throw (reject index (.claimedInBlock input.claimed))
      else findOutput index head? seen input >>= fun output =>
        if verify input output then
          checkInputs verify index head? seen (input.claimed :: claimed) inputs
        else throw (reject index (.scriptRejected input.claimed)) := by
  rw [checkInputs, findOutput]
  by_cases hclaimed : input.claimed ∈ claimed
  · simp only [hclaimed, if_true]
    rfl
  · simp only [hclaimed, if_false]
    cases earlier? seen input.claimed.txHash with
    | some tx => rfl
    | none => rfl

end Steps

section Checks

variable {σ : Type} [Medium σ] [Faithful σ] {F : Prop} {a : Arena}

theorem solves_claimedOutput (index : Nat) (tx : Transaction) (input : TxInput) :
    Solves (σ := σ) F (MonadExcept.ofExcept (claimedOutput index tx input)) a
      (outputOf? input tx = some ·) := by
  unfold claimedOutput outputOf?
  cases tx.outputs[input.claimed.index.toNat]? with
  | none => exact .throw fun _ h => Option.some_ne_none _ h.symm
  | some output => exact .pure rfl

variable (ha : a.Sound) (hpath : Branch a head? path)

include ha hpath

theorem reads_claimedOnBranch (input : TxInput) :
    Reads (σ := σ) F (claimedOnBranch head? input) a
      (· = onBranch? path input.claimed.txHash) := by
  unfold claimedOnBranch onBranch?
  cases head? with
  | none =>
    rw [show path = [] from hpath]
    exact .pure rfl
  | some head =>
    refine (ha.reads_firstOnBranch hpath).bind ?_
    rintro _ rfl
    cases path.find? fun l => l.block.containsTransaction input.claimed.txHash with
    | none => exact .pure rfl
    | some link => exact .pure rfl

theorem solves_freeOutput (index : Nat) (input : TxInput) :
    Solves (σ := σ) F (freeOutput index head? input) a fun output =>
      (onBranch? path input.claimed.txHash).bind (outputOf? input) = some output ∧
        ∀ l ∈ path, input.claimed ∉ l.block.claims := by
  unfold freeOutput
  refine (reads_claimedOnBranch ha hpath input).solves ?_
  cases onBranch? path input.claimed.txHash with
  | none => exact .throw fun _ h => Option.some_ne_none _ h.1.symm
  | some tx =>
    refine (solves_claimedOutput index tx input).bind (fun w hw => ⟨w, hw.1⟩) ?_
    intro output houtput
    cases head? with
    | none =>
      obtain rfl : path = [] := hpath
      exact .pure ⟨houtput, by simp⟩
    | some head =>
      refine Reads.solves (ha.reads_firstOnBranch hpath) ?_
      cases hclaimer : path.find? fun l => (l.block.claimerOf? input.claimed).isSome with
      | none =>
        refine .pure ⟨houtput, fun l hl hclaims => ?_⟩
        exact List.find?_eq_none.mp hclaimer l hl (Block.isSome_claimerOf?.mpr hclaims)
      | some claimer =>
        refine .throw fun _ h => ?_
        have hsome : (claimer.block.claimerOf? input.claimed).isSome := by
          simpa using List.find?_some hclaimer
        exact h.2 claimer (List.mem_of_find?_eq_some hclaimer) (Block.isSome_claimerOf?.mp hsome)

theorem solves_findOutput (index : Nat) (earlier : List Transaction) (input : TxInput) :
    Solves (σ := σ) F (findOutput index head? (seen earlier) input) a
      (Offers path earlier input) := by
  rw [findOutput, earlier?_seen]
  cases hearlier : earlier.find? fun tx => tx.hash == input.claimed.txHash with
  | some tx =>
    refine (solves_claimedOutput index tx input).congr fun output => ?_
    constructor
    · exact fun h => ⟨by simpa [source?, hearlier] using h, by simp [hearlier]⟩
    · exact fun h => by simpa [source?, hearlier] using h.output_eq
  | none =>
    refine (solves_freeOutput ha hpath index input).congr fun output => ?_
    constructor
    · exact fun h => ⟨by simpa [source?, hearlier] using h.1, fun _ => h.2⟩
    · exact fun h => ⟨by simpa [source?, hearlier] using h.output_eq, h.free hearlier⟩

theorem solves_checkInputs (index : Nat) (earlier : List Transaction) {claimed : List OutPoint}
    (hnodup : claimed.Nodup) (inputs : List TxInput) :
    Solves (σ := σ) F (checkInputs verify index head? (seen earlier) claimed inputs) a
      fun after => after = (inputs.map TxInput.claimed).reverse ++ claimed ∧ after.Nodup ∧
        ∀ input ∈ inputs, Covered verify path earlier input := by
  induction inputs generalizing claimed with
  | nil => exact .pure ⟨rfl, hnodup, by simp⟩
  | cons input inputs ih =>
    have happend : ((input :: inputs).map TxInput.claimed).reverse ++ claimed =
        (inputs.map TxInput.claimed).reverse ++ input.claimed :: claimed := by simp
    rw [checkInputs_cons]
    by_cases hclaimed : input.claimed ∈ claimed
    · -- no list of claims that contains this one twice is without repetition
      rw [if_pos hclaimed]
      refine .throw ?_
      rintro after ⟨rfl, hafter, -⟩
      rw [happend] at hafter
      exact (List.nodup_cons.mp hafter.of_append_right).1 hclaimed
    · rw [if_neg hclaimed]
      refine (solves_findOutput ha hpath index earlier input).bind ?_ ?_
      · rintro after ⟨-, -, hcovered⟩
        obtain ⟨output, hoffers, -⟩ := hcovered input List.mem_cons_self
        exact ⟨output, hoffers⟩
      · intro output hoffers
        by_cases hverify : verify input output
        · rw [if_pos hverify]
          refine (ih (List.nodup_cons.mpr ⟨hclaimed, hnodup⟩)).congr fun after => ?_
          have hhead : Covered verify path earlier input := ⟨output, hoffers, hverify⟩
          rw [happend, List.forall_mem_cons, and_iff_right hhead]
        · rw [if_neg hverify]
          refine .throw fun after hafter => ?_
          obtain ⟨output', hoffers', hverify'⟩ := hafter.2.2 input List.mem_cons_self
          exact hverify (hoffers.unique hoffers' ▸ hverify')

theorem solves_checkFrom (index : Nat) (earlier : List Transaction) {claimed : List OutPoint}
    (hnodup : claimed.Nodup) (txs : List Transaction) :
    Solves (σ := σ) F (checkFrom verify head? index (seen earlier) claimed txs) a fun _ =>
      ((txs.flatMap Transaction.claims).reverse ++ claimed).Nodup ∧
        CoveredFrom verify path earlier txs := by
  induction txs generalizing index earlier claimed with
  | nil => exact .pure ⟨hnodup, coveredFrom_nil⟩
  | cons tx txs ih =>
    have happend : ((tx :: txs).flatMap Transaction.claims).reverse ++ claimed =
        (txs.flatMap Transaction.claims).reverse ++ (tx.claims.reverse ++ claimed) := by simp
    unfold checkFrom
    refine (solves_checkInputs ha hpath index earlier hnodup tx.inputs).bind ?_ ?_
    · rintro - ⟨hall, hcovered⟩
      rw [happend] at hall
      exact ⟨_, rfl, hall.of_append_right, (coveredFrom_cons.mp hcovered).1⟩
    · rintro _ ⟨rfl, hafter, hhead⟩
      refine (ih (index + 1) (tx :: earlier) hafter).congr fun _ => ?_
      rw [happend, coveredFrom_cons, and_iff_right hhead]
      rfl

omit hpath ha in
theorem reads_branchHead_root (hz : block.prevHash.isZero) :
    Reads (σ := σ) F (branchHead block) a (· = none) := by
  simp only [branchHead, hz, if_true]
  exact .pure rfl

omit hpath in
theorem reads_branchHead_parent {parent : Link} (hp : parent ∈ a.links)
    (hhash : parent.hash = block.prevHash) (hz : block.prevHash.isZero = false)
    (hr : parent.isResolved) : Reads (σ := σ) F (branchHead block) a (· = some parent) := by
  simp only [branchHead, hz]
  refine (ha.reads_getLink block.prevHash).bind ?_
  rintro _ rfl
  rw [← hhash, ha.ordered.find?_mem hp]
  simp only [hr, if_true]
  exact .pure rfl

omit hpath in
theorem refuses_branchHead_orphan {parent : Link} (hp : parent ∈ a.links)
    (hhash : parent.hash = block.prevHash) (hz : block.prevHash.isZero = false)
    (ho : parent.isOrphan) :
    Refuses (σ := σ) F (branchHead block) a (.notFound (.resolvedParent block.prevHash)) := by
  have hr : parent.isResolved = false := by simp [Link.isResolved, ho]
  simp only [branchHead, hz]
  refine (ha.reads_getLink block.prevHash).refuses ?_
  rintro _ rfl
  rw [← hhash, ha.ordered.find?_mem hp]
  simp only [hr]
  exact .throw

omit hpath in
theorem refuses_branchHead_lacking (hz : block.prevHash.isZero = false)
    (hlacks : a.find? block.prevHash = none) :
    Refuses (σ := σ) F (branchHead block) a (.notFound (.parent block.prevHash)) := by
  simp only [branchHead, hz]
  refine (ha.reads_getLink block.prevHash).refuses ?_
  rintro _ rfl
  rw [hlacks]
  exact .throw

theorem solves_checkSpends (hhead : Reads (σ := σ) F (branchHead block) a (· = head?)) :
    Solves (σ := σ) F (checkSpends verify block) a fun _ =>
      block.claims.Nodup ∧ CoveredFrom verify path [] block.transactions := by
  refine hhead.solves ((solves_checkFrom ha hpath 0 [] List.nodup_nil _).congr fun _ => ?_)
  rw [List.append_nil, List.nodup_reverse]
  rfl

end Checks

/-- The links from the parent of a block on, the latest first. -/
structure Below (a : Arena) (block : Block) (path : List Link) : Prop where
  root : block.prevHash.isZero → path = []
  parent : block.prevHash.isZero = false →
    ∃ p ∈ a.links, p.hash = block.prevHash ∧ a.Lineage p path

structure Accepted (a : Arena) (block : Block) (path : List Link) : Prop where
  below : Below a block path
  nodup : block.claims.Nodup
  free : ∀ p ∈ block.claims, p ∉ block.inward → ∀ l ∈ path, p ∉ l.block.claims

theorem exists_branch (ha : a.Sound) (block : Block) :
    (∃ head? path, Branch a head? path ∧ Below a block path ∧
      Reads (σ := σ) F (branchHead block) a (· = head?)) ∨
    ∃ e, Refuses (σ := σ) F (branchHead block) a e := by
  cases hz : block.prevHash.isZero with
  | true =>
    exact .inl ⟨none, [], rfl, ⟨fun _ => rfl, by simp [hz]⟩, reads_branchHead_root hz⟩
  | false =>
    cases hf : a.find? block.prevHash with
    | none => exact .inr ⟨_, refuses_branchHead_lacking ha hz hf⟩
    | some p =>
      obtain ⟨hp, hhash⟩ := Arena.mem_of_find? hf
      by_cases ho : p.isOrphan
      · exact .inr ⟨_, refuses_branchHead_orphan ha hp hhash hz ho⟩
      · have hr : p.isResolved := by simpa [Link.isResolved] using ho
        obtain ⟨path, hpath⟩ := ha.chained.exists_lineage hp hr
        exact .inl ⟨some p, path, hpath, ⟨by simp [hz], fun _ => ⟨p, hp, hhash, hpath⟩⟩,
          reads_branchHead_parent ha hp hhash hz hr⟩

theorem accepted_of_checkSpends (ha : a.Sound) {s s' : σ} (hs : Backed F s a)
    (h : checkSpends verify block s = .ok () s') : ∃ path, Accepted a block path := by
  rcases exists_branch (σ := σ) (F := F) ha block with ⟨head?, path, hpath, hbelow, hhead⟩ | ⟨e, he⟩
  · obtain ⟨-, -, -, hnodup, hcovered⟩ := Ends.of_ok (solves_checkSpends ha hpath hhead) hs h
    exact ⟨path, hbelow, hnodup, hcovered.free⟩
  · obtain ⟨-, -, hnone⟩ := Ends.of_ok he.bind hs h
    exact hnone.elim

end Spending

end BlockTree
