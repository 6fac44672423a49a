import BlockTree.Proofs.MerkleBinding
import BlockTree.Proofs.Observation
import BlockTree.Proofs.Preimages

/-! What the hash of a block commits to. Two acceptable blocks with one hash are the same
block, or two of the strings that were hashed for them have one digest. -/

namespace BlockTree

/-- The strings that are hashed for the double hash of a message. -/
def doubled (message : Bytes) : List Bytes :=
  [message, sha256 message]

theorem Hash.bytes_double (message : Bytes) : (double message).bytes = sha256 (sha256 message) :=
  ofBytes_of_length (length_sha256 _)

theorem Hash.eq_of_double {m m' : Bytes} (h : double m = double m') :
    m = m' ∨ Collide (doubled m) (doubled m') := by
  have hbytes := congrArg Hash.bytes h
  rw [bytes_double, bytes_double] at hbytes
  have houter : sha256 m = sha256 m' ∨ Collide (doubled m) (doubled m') :=
    Collide.eq_or (by simp [doubled]) (by simp [doubled]) hbytes
  rcases houter with hinner | hcollide
  · exact Collide.eq_or (by simp [doubled]) (by simp [doubled]) hinner
  · exact .inr hcollide

def Transaction.hashed (tx : Transaction) : List Bytes :=
  doubled tx.preimage

theorem Transaction.Short.eq_of_hash {tx tx' : Transaction} (h : tx.Short) (h' : tx'.Short)
    (he : tx.hash = tx'.hash) : tx = tx' ∨ Collide tx.hashed tx'.hashed :=
  (Hash.eq_of_double he).imp_left (h.eq_of_preimage h')

namespace Merkle

def leaves (txs : List Transaction) : List Bytes :=
  txs.map fun tx => tx.hash.bytes

def hashed (txs : List Transaction) : List Bytes :=
  climbed txs.length (leaves txs)

variable {txs txs' : List Transaction}

theorem even_leaves (txs : List Transaction) : Even (leaves txs) := by
  intro node hnode
  obtain ⟨tx, -, htx⟩ := List.mem_map.mp hnode
  rw [← htx]
  exact tx.hash.length_bytes

theorem exists_rises_leaves (hne : txs ≠ []) :
    ∃ m, Rises (leaves txs) m (root txs).bytes (hashed txs) := by
  have hnodes : leaves txs ≠ [] := by simpa [leaves] using hne
  obtain ⟨m, hm⟩ := exists_rises (n := txs.length) hnodes (by simp [leaves])
  have heven := (even_leaves txs).iterate (m + 1)
  rw [hm.top] at heven
  have hroot : (root txs).bytes = climb txs.length (leaves txs) := by
    cases txs with
    | nil => exact absurd rfl hne
    | cons tx txs => exact Hash.ofBytes_of_length (heven _ (List.mem_singleton_self _))
  exact ⟨m, hroot ▸ hm⟩

/-- A leaf is the digest of a digest, so it is no node above a pair. -/
theorem collide_of_lt {m m' : Nat} {root : Bytes} (h : Rises (leaves txs) m root (hashed txs))
    (h' : Rises (leaves txs') m' root (hashed txs')) (hm : m < m') :
    Collide (txs.flatMap Transaction.hashed ++ hashed txs) (hashed txs') := by
  have hhead := h.head_of_lt h' (even_leaves txs) (even_leaves txs') hm
  rcases hhead with ⟨s, hs, hlen, rest, hhead⟩ | hc
  · cases txs with
    | nil => simp [leaves] at hhead
    | cons tx txs =>
      have hleaf : tx.hash.bytes = sha256 s := (List.cons.inj hhead).1
      rw [Transaction.hash, Hash.bytes_double] at hleaf
      refine Collide.of_length_ne (s := sha256 tx.preimage) ?_ hs ?_ hleaf
      · simp [Transaction.hashed, doubled]
      · rw [length_sha256, hlen]
        decide
  · exact hc.mono (List.subset_append_right _ _) (List.Subset.refl _)

theorem leaves_eq_of_root (hne : txs ≠ []) (hne' : txs' ≠ []) (he : root txs = root txs') :
    leaves txs = leaves txs' ∨ Collide (txs.flatMap Transaction.hashed ++ hashed txs)
      (txs'.flatMap Transaction.hashed ++ hashed txs') := by
  obtain ⟨m, hm⟩ := exists_rises_leaves hne
  obtain ⟨m', hm'⟩ := exists_rises_leaves hne'
  rw [he] at hm
  rcases Nat.lt_trichotomy m m' with hlt | hsame | hgt
  · exact .inr ((collide_of_lt hm hm' hlt).mono (List.Subset.refl _)
      (List.subset_append_right _ _))
  · exact (hm.eq_or_collide hm' (even_leaves txs) (even_leaves txs') hsame).imp_right
      fun hc => hc.mono (List.subset_append_right _ _) (List.subset_append_right _ _)
  · exact .inr ((collide_of_lt hm' hm hgt).symm.mono (List.subset_append_right _ _)
      (List.Subset.refl _))

theorem eq_of_root (hshort : ∀ tx ∈ txs, tx.Short) (hshort' : ∀ tx ∈ txs', tx.Short)
    (hne : txs ≠ []) (hne' : txs' ≠ []) (he : root txs = root txs') :
    txs = txs' ∨ Collide (txs.flatMap Transaction.hashed ++ hashed txs)
      (txs'.flatMap Transaction.hashed ++ hashed txs') := by
  rcases leaves_eq_of_root hne hne' he with hleaves | hcollide
  · have hsame := Collide.eq_or_of_map Transaction.hashed (fun tx htx tx' htx' hbytes =>
      (hshort tx htx).eq_of_hash (hshort' tx' htx') (Key.link_inj.mp hbytes)) hleaves
    exact hsame.imp_right fun hc =>
      hc.mono (List.subset_append_left _ _) (List.subset_append_left _ _)
  · exact .inr hcollide

end Merkle

namespace Block

variable {b c : Block} {now later drift drift' : Int} {work work' : Work}

/-- The strings that are hashed for the hash of a block, those of its transactions and
their Merkle root. -/
def hashed (b : Block) : List Bytes :=
  doubled b.header.preimage ++
    (b.transactions.flatMap Transaction.hashed ++ Merkle.hashed b.transactions)

theorem committed_of_validate (h : validate now drift b = .ok work) :
    b.transactions ≠ [] ∧ Merkle.root b.transactions = b.header.merkleRoot := by
  obtain ⟨ht, hm, -, -⟩ := Node.validate_eq_ok.mp h
  unfold Validation.checkTransactions at ht
  unfold Validation.checkMerkleRoot at hm
  refine ⟨fun hnil => ?_, ?_⟩
  · simp [hnil] at ht
  · by_contra hne
    simp [hne] at hm

/-- The hash tells acceptable blocks apart, unless two of the strings that are hashed for
them have one digest. -/
theorem hash_eq_iff_or_collide (hb : validate now drift b = .ok work)
    (hc : validate later drift' c = .ok work') (hbs : ∀ tx ∈ b.transactions, tx.Short)
    (hcs : ∀ tx ∈ c.transactions, tx.Short) :
    (b.hash = c.hash ↔ b = c) ∨ Collide b.hashed c.hashed := by
  by_cases hhash : b.hash = c.hash
  · obtain ⟨hbne, hbroot⟩ := committed_of_validate hb
    obtain ⟨hcne, hcroot⟩ := committed_of_validate hc
    rcases Hash.eq_of_double hhash with hpreimage | hcollide
    · have hheader : b.header = c.header := Header.eq_of_preimage hpreimage
      have hroot : Merkle.root b.transactions = Merkle.root c.transactions := by
        rw [hbroot, hcroot, hheader]
      rcases Merkle.eq_of_root hbs hcs hbne hcne hroot with htxs | hcollide
      · have hsame : b = c := by
          cases b
          cases c
          exact congrArg₂ Block.mk hheader htxs
        exact .inl ⟨fun _ => hsame, fun _ => hhash⟩
      · exact .inr (hcollide.mono (List.subset_append_right _ _) (List.subset_append_right _ _))
    · exact .inr (hcollide.mono (List.subset_append_left _ _) (List.subset_append_left _ _))
  · exact .inl ⟨fun h => absurd h hhash, fun h => absurd (congrArg hash h) hhash⟩

def threefold : Block :=
  easy first.hash [.coinbase 1, .coinbase 2, .coinbase 3]

theorem threefold_computed : validate 0 7200 first = .ok 1 ∧
    validate 0 7200 threefold = .ok 1 ∧ first ≠ threefold := by
  decide +kernel

theorem hash_eq_iff_or_collide_threefold :
    validate 0 7200 first = .ok 1 ∧ validate 0 7200 threefold = .ok 1 ∧ first ≠ threefold ∧
    ((first.hash = threefold.hash ↔ first = threefold) ∨
      Collide first.hashed threefold.hashed) := by
  obtain ⟨hfirst, hthreefold, hne⟩ := threefold_computed
  have hshort (tag : UInt32) : (Transaction.coinbase tag).Short := by
    constructor <;> simp [Transaction.coinbase]
  refine ⟨hfirst, hthreefold, hne, ?_⟩
  refine hash_eq_iff_or_collide hfirst hthreefold ?_ ?_
  · simpa [first, easy] using hshort 0
  · simpa [threefold, easy] using ⟨hshort 1, hshort 2, hshort 3⟩

end Block

end BlockTree
