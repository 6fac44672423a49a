import BlockTree.Block
import BlockTree.Proofs.Codec

/-! The strings of which headers and transactions take their hashes. They can be read
back, so two headers, or two transactions of bounded size, never share one. -/

namespace BlockTree

/-- Every length of the transaction fits into its four bytes. -/
structure Transaction.Short (tx : Transaction) : Prop where
  inputs : tx.inputs.length < 2 ^ 32
  outputs : tx.outputs.length < 2 ^ 32
  scriptSig : ∀ input ∈ tx.inputs, input.scriptSig.length < 2 ^ 32
  scriptPubkey : ∀ output ∈ tx.outputs, output.scriptPubkey.length < 2 ^ 32

namespace Preimage

open Record

def hash : Reader Hash :=
  return .ofBytes (← take 32)

def sized : Reader Bytes := do
  take (← nat 4)

def list (item : Reader α) : Reader (List α) := do
  repeated item (← nat 4)

def txInput : Reader TxInput :=
  return ⟨⟨← hash, ← u32⟩, ← sized⟩

def txOutput : Reader TxOutput :=
  return ⟨← u64, ← sized⟩

def transaction : Reader Transaction :=
  return ⟨← u32, ← list txInput, ← list txOutput, ← u32⟩

def header : Reader Header :=
  return ⟨← u32, ← hash, ← hash, ← i64, ← u32, ← u32⟩

theorem restores_hash (h : Hash) : Restores hash h.bytes h := by
  refine (restores_take h.length_bytes).last ?_
  rw [Hash.ofBytes_bytes]
  exact .pure

theorem restores_sized {bs : Bytes} (h : bs.length < 2 ^ 32) :
    Restores sized (BlockTree.sized bs) bs :=
  (restores_nat h).bind (restores_take rfl)

theorem restores_list {α : Type} {item : Reader α} {enc : α → Bytes} {items : List α}
    (hlen : items.length < 2 ^ 32) (h : ∀ x ∈ items, Restores item (enc x) x) :
    Restores (list item) (littleEndian 4 items.length ++ items.flatMap enc) items :=
  (restores_nat hlen).bind (restores_repeated h)

theorem restores_txInput {input : TxInput} (h : input.scriptSig.length < 2 ^ 32) :
    Restores txInput input.preimage input := by
  rw [TxInput.preimage, List.append_assoc]
  exact (restores_hash _).bind ((restores_u32 _).bind ((restores_sized h).last .pure))

theorem restores_txOutput {output : TxOutput} (h : output.scriptPubkey.length < 2 ^ 32) :
    Restores txOutput output.preimage output :=
  (restores_u64 output.value).bind ((restores_sized h).last .pure)

theorem restores_transaction {tx : Transaction} (h : tx.Short) :
    Restores transaction tx.preimage tx := by
  have hinputs := restores_list h.inputs fun i hi => restores_txInput (h.scriptSig i hi)
  have houtputs := restores_list h.outputs fun o ho => restores_txOutput (h.scriptPubkey o ho)
  have hwhole : tx.preimage = ofU32 tx.version ++
      ((littleEndian 4 tx.inputs.length ++ tx.inputs.flatMap TxInput.preimage) ++
        ((littleEndian 4 tx.outputs.length ++ tx.outputs.flatMap TxOutput.preimage) ++
          ofU32 tx.lockTime)) := by
    simp only [Transaction.preimage, ofU32, List.append_assoc]
  rw [hwhole]
  exact (restores_u32 _).bind (hinputs.bind (houtputs.bind ((restores_u32 _).last .pure)))

theorem restores_header (h : Header) : Restores header h.preimage h := by
  have hwhole : h.preimage = ofU32 h.version ++ (h.prevHash.bytes ++ (h.merkleRoot.bytes ++
      (ofI64 h.timestamp ++ (ofU32 h.bits ++ ofU32 h.nonce)))) := by
    simp only [Header.preimage, ofU32, ofI64, ofU64, List.append_assoc]
  rw [hwhole]
  exact (restores_u32 _).bind ((restores_hash _).bind ((restores_hash _).bind
    ((restores_i64 _).bind ((restores_u32 _).bind ((restores_u32 _).last .pure)))))

end Preimage

theorem Record.Restores.unique {α : Type} {reader : Reader α} {bs : Bytes} {v w : α}
    (hv : Restores reader bs v) (hw : Restores reader bs w) : v = w :=
  Option.some.inj (hv.decode.symm.trans hw.decode)

theorem Transaction.Short.eq_of_preimage {tx tx' : Transaction} (h : tx.Short) (h' : tx'.Short)
    (he : tx.preimage = tx'.preimage) : tx = tx' :=
  (Preimage.restores_transaction h).unique (he ▸ Preimage.restores_transaction h')

theorem Header.eq_of_preimage {h h' : Header} (he : h.preimage = h'.preimage) : h = h' :=
  (Preimage.restores_header h).unique (he ▸ Preimage.restores_header h')

end BlockTree
