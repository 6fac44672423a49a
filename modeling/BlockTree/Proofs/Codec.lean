import BlockTree.Record

/-! Reading back what was written. A record is restored from the front of any byte
string that begins with its binary form. -/

namespace BlockTree

namespace Hex

theorem digitValue?_digit {v : Nat} (h : v < 16) : digitValue? (digit v) = some v := by
  revert v
  decide

theorem digit_spec {v : Nat} (h : v < 16) :
    (digit v).toNat < 128 ∧ (digit v).utf8Size = 1 ∧ digit v ≠ 'x' := by
  revert v
  decide

theorem length_encode (bs : Bytes) : (encode bs).length = 2 * bs.length := by
  induction bs with
  | nil => rfl
  | cons b bs ih =>
    simp only [encode, List.length_cons, ih]
    omega

theorem exists_digit {bs : Bytes} {c : Char} (h : c ∈ encode bs) : ∃ v < 16, c = digit v := by
  induction bs with
  | nil => simp [encode] at h
  | cons b bs ih =>
    have hb := b.toNat_lt
    simp only [encode, List.mem_cons] at h
    rcases h with h | h | h
    · exact ⟨b.toNat / 16, by omega, h⟩
    · exact ⟨b.toNat % 16, by omega, h⟩
    · exact ih h

theorem byteLength_encode (bs : Bytes) : byteLength (encode bs) = 2 * bs.length := by
  induction bs with
  | nil => rfl
  | cons b bs ih =>
    have hb := b.toNat_lt
    have hhigh := (digit_spec (v := b.toNat / 16) (by omega)).2.1
    have hlow := (digit_spec (v := b.toNat % 16) (by omega)).2.1
    rw [encode, byteLength, byteLength, ih, hhigh, hlow, List.length_cons]
    omega

theorem decodeFrom_encode (bs : Bytes) (position : Nat) :
    decodeFrom position (encode bs) = .ok bs := by
  induction bs generalizing position with
  | nil => rfl
  | cons b bs ih =>
    have hb := b.toNat_lt
    have hbyte : UInt8.ofNat (16 * (b.toNat / 16) + b.toNat % 16) = b := by
      rw [Nat.div_add_mod]
      exact UInt8.ofNat_toNat
    rw [encode, decodeFrom, digitValue?_digit (by omega), digitValue?_digit (by omega)]
    simp only [ih, hbyte]

theorem decode_encode (bs : Bytes) : decode (encode bs) = .ok bs := by
  have heven : ¬ (2 * bs.length % 2 = 1) := by omega
  rw [decode, byteLength_encode, if_neg heven, decodeFrom_encode]

end Hex

theorem Hash.stripMarker_encode (bs : Bytes) :
    stripMarker (Hex.encode bs) = Hex.encode bs := by
  unfold stripMarker
  split
  · next rest h =>
    cases bs with
    | nil => simp [Hex.encode] at h
    | cons b bs =>
      have hlow : Hex.digit (b.toNat % 16) ≠ 'x' := (Hex.digit_spec (by omega)).2.2
      simp only [Hex.encode, List.cons.injEq] at h
      exact absurd h.2.1 hlow
  · rfl

theorem Hash.parse?_encode (h : Hash) : parse? (Hex.encode h.bytes) = some h := by
  rw [parse?, parse, stripMarker_encode, Hex.decode_encode]
  simp [h.length_bytes, Except.toOption]

theorem Work.ofDigits_digitsUpTo {places n : Nat} (h : n < 2 ^ (32 * places)) :
    ofDigits (digitsUpTo places n) = n := by
  induction places generalizing n with
  | zero =>
    have : n = 0 := by omega
    rw [this]
    rfl
  | succ places ih =>
    by_cases hn : n = 0
    · simp [digitsUpTo, hn, ofDigits]
    · have hrest : n / 2 ^ 32 < 2 ^ (32 * places) := by
        rw [Nat.div_lt_iff_lt_mul (by decide), ← Nat.pow_add]
        rwa [Nat.mul_succ] at h
      have hlow : (UInt32.ofNat n).toNat = n % 2 ^ 32 := UInt32.toNat_ofNat'
      rw [digitsUpTo, if_neg hn, ofDigits, ih hrest, hlow]
      exact Nat.mod_add_div n _

theorem Work.ofDigits_digits (work : Work) : ofDigits (digits work) = work := by
  have hlt : work < 2 ^ (Nat.log2 work + 1) := Nat.lt_log2_self
  refine ofDigits_digitsUpTo (Nat.lt_of_lt_of_le hlt ?_)
  exact Nat.pow_le_pow_right (by decide) (by omega)

theorem Work.length_digitsUpTo_le (places n : Nat) : (digitsUpTo places n).length ≤ places := by
  induction places generalizing n with
  | zero => simp [digitsUpTo]
  | succ places ih =>
    rw [digitsUpTo]
    split
    · simp
    · rw [List.length_cons]
      exact Nat.succ_le_succ (ih (n / 2 ^ 32))

structure Transaction.Writable (tx : Transaction) : Prop where
  inputs : tx.inputs.length < 2 ^ 64
  outputs : tx.outputs.length < 2 ^ 64
  scriptSig : ∀ input ∈ tx.inputs, 2 * input.scriptSig.length < 2 ^ 64
  scriptPubkey : ∀ output ∈ tx.outputs, 2 * output.scriptPubkey.length < 2 ^ 64

structure Block.Writable (b : Block) : Prop where
  transactions : b.transactions.length < 2 ^ 64
  each : ∀ tx ∈ b.transactions, tx.Writable

structure Link.Writable (l : Link) : Prop where
  block : l.block.Writable
  seq : l.seq < 2 ^ 64
  status : ∀ h w : Nat, l.status = .resolved h w → h < 2 ^ 64 ∧ (Work.digits w).length < 2 ^ 64

theorem Link.Writable.withSeq {l : Link} {n : Nat} (h : l.Writable) (hn : n < 2 ^ 64) :
    (l.withSeq n).Writable :=
  ⟨h.block, hn, h.status⟩

namespace Record

variable {α β : Type} {reader : Reader α} {next : α → Reader β} {bs cs : Bytes} {v : α} {w : β}

/-- The reader takes `v` from the front of whatever begins with `bs`. -/
def Restores (reader : Reader α) (bs : Bytes) (v : α) : Prop :=
  ∀ rest, reader (bs ++ rest) = some (v, rest)

theorem Restores.pure : Restores (pure v) [] v :=
  fun _ => rfl

theorem Restores.bind (h : Restores reader bs v) (hnext : Restores (next v) cs w) :
    Restores (reader >>= next) (bs ++ cs) w := by
  intro rest
  have hrun : (reader >>= next) (bs ++ cs ++ rest) =
      (reader (bs ++ (cs ++ rest))).bind fun p => next p.1 p.2 := by
    rw [List.append_assoc]
    rfl
  rw [hrun, h, Option.bind_some, hnext]

theorem Restores.last (h : Restores reader bs v) (hnext : Restores (next v) [] w) :
    Restores (reader >>= next) bs w := by
  have := h.bind hnext
  rwa [List.append_nil] at this

theorem Restores.decode (h : Restores reader bs v) : decode reader bs = some v := by
  have := h []
  rw [List.append_nil] at this
  rw [Record.decode, this]
  rfl

theorem restores_take {n : Nat} (h : bs.length = n) : Restores (take n) bs bs := by
  intro rest
  induction n generalizing bs with
  | zero =>
    rw [List.length_eq_zero_iff.mp h]
    rfl
  | succ n ih =>
    cases bs with
    | nil => simp at h
    | cons b bs =>
      have hlen : bs.length = n := by simpa using h
      simp only [List.cons_append, take, ih hlen]

theorem restores_nat {width n : Nat} (h : n < 256 ^ width) :
    Restores (nat width) (littleEndian width n) n := by
  refine (restores_take (length_littleEndian width n)).last ?_
  rw [ofLittleEndian_littleEndian, Nat.mod_eq_of_lt h]
  exact .pure

theorem restores_repeated {item : Reader α} {enc : α → Bytes} {items : List α}
    (h : ∀ x ∈ items, Restores item (enc x) x) :
    Restores (repeated item items.length) (items.flatMap enc) items := by
  induction items with
  | nil => exact .pure
  | cons x xs ih =>
    refine (h x List.mem_cons_self).bind ?_
    exact (ih fun y hy => h y (List.mem_cons_of_mem _ hy)).last .pure

theorem restores_list {item : Reader α} {enc : α → Bytes} {items : List α}
    (hlen : items.length < 2 ^ 64) (h : ∀ x ∈ items, Restores item (enc x) x) :
    Restores (list item) (ofList enc items) items :=
  (restores_nat hlen).bind (restores_repeated h)

theorem restores_bytes (h : bs.length < 2 ^ 64) : Restores bytes (ofBytes bs) bs :=
  (restores_nat h).bind (restores_take rfl)

theorem restores_hexText (h : 2 * bs.length < 2 ^ 64) :
    Restores ascii (ofAscii (Hex.encode bs)) (Hex.encode bs) := by
  refine (restores_bytes (by simpa [Hex.length_encode] using h)).last ?_
  have hsame : ((Hex.encode bs).map fun c => UInt8.ofNat c.toNat).map
      (fun b => Char.ofNat b.toNat) = Hex.encode bs := by
    rw [List.map_map]
    refine (List.map_congr_left fun c hc => ?_).trans (List.map_id _)
    obtain ⟨v, hv, he⟩ := Hex.exists_digit hc
    have hlt : c.toNat < 128 := he ▸ (Hex.digit_spec hv).1
    have hbyte : (UInt8.ofNat c.toNat).toNat = c.toNat := by
      rw [UInt8.toNat_ofNat', Nat.mod_eq_of_lt (by omega)]
    rw [Function.comp_apply, hbyte, Char.ofNat_toNat]
    rfl
  rw [hsame]
  exact .pure

theorem restores_hash (h : Hash) : Restores hash (ofHash h) h := by
  refine (restores_hexText (by simp [h.length_bytes])).last ?_
  rw [Hash.parse?_encode]
  exact .pure

theorem restores_script (h : 2 * bs.length < 2 ^ 64) : Restores script (ofScript bs) bs := by
  refine (restores_hexText h).last ?_
  rw [Hex.decode_encode]
  exact .pure

theorem restores_u32 (n : UInt32) : Restores u32 (ofU32 n) n := by
  refine (restores_nat n.toNat_lt).last ?_
  rw [UInt32.ofNat_toNat]
  exact .pure

theorem restores_u64 (n : UInt64) : Restores u64 (ofU64 n) n := by
  refine (restores_nat n.toNat_lt).last ?_
  rw [UInt64.ofNat_toNat]
  exact .pure

theorem restores_i64 (n : Int64) : Restores i64 (ofI64 n) n := by
  refine (restores_u64 n.toUInt64).last ?_
  exact .pure

theorem restores_outPoint (p : OutPoint) : Restores outPoint (ofOutPoint p) p :=
  (restores_hash p.txHash).bind ((restores_u32 p.index).last .pure)

theorem restores_txInput {input : TxInput} (h : 2 * input.scriptSig.length < 2 ^ 64) :
    Restores txInput (ofTxInput input) input :=
  (restores_outPoint input.claimed).bind ((restores_script h).last .pure)

theorem restores_txOutput {output : TxOutput} (h : 2 * output.scriptPubkey.length < 2 ^ 64) :
    Restores txOutput (ofTxOutput output) output :=
  (restores_u64 output.value).bind ((restores_script h).last .pure)

theorem restores_transaction {tx : Transaction} (h : tx.Writable) :
    Restores transaction (ofTransaction tx) tx := by
  have hinputs := restores_list h.inputs fun i hi => restores_txInput (h.scriptSig i hi)
  have houtputs := restores_list h.outputs fun o ho => restores_txOutput (h.scriptPubkey o ho)
  rw [ofTransaction, List.append_assoc, List.append_assoc]
  exact (restores_u32 tx.version).bind (hinputs.bind (houtputs.bind
    ((restores_u32 tx.lockTime).last .pure)))

theorem restores_header (h : Header) : Restores header (ofHeader h) h := by
  rw [ofHeader, List.append_assoc, List.append_assoc, List.append_assoc, List.append_assoc]
  exact (restores_u32 h.version).bind ((restores_hash h.prevHash).bind
    ((restores_hash h.merkleRoot).bind ((restores_i64 h.timestamp).bind
      ((restores_u32 h.bits).bind ((restores_u32 h.nonce).last .pure)))))

theorem restores_block {b : Block} (h : b.Writable) : Restores block (ofBlock b) b :=
  (restores_header b.header).bind
    ((restores_list h.transactions fun tx htx => restores_transaction (h.each tx htx)).last .pure)

theorem restores_work {n : Work} (h : (Work.digits n).length < 2 ^ 64) :
    Restores work (ofWork n) n := by
  refine (restores_list h fun d _ => restores_u32 d).last ?_
  rw [Work.ofDigits_digits]
  exact .pure

theorem restores_status {s : LinkStatus}
    (h : ∀ height w : Nat, s = .resolved height w →
      height < 2 ^ 64 ∧ (Work.digits w).length < 2 ^ 64) :
    Restores status (ofStatus s) s := by
  cases s with
  | orphan => exact (restores_nat (by decide)).last .pure
  | resolved height w =>
    obtain ⟨hheight, hw⟩ := h height w rfl
    rw [ofStatus, List.append_assoc]
    exact (restores_nat (by decide)).bind
      ((restores_nat hheight).bind ((restores_work hw).last .pure))

theorem restores_link {l : Link} (h : l.Writable) : Restores link (ofLink l) l := by
  rw [ofLink, List.append_assoc, List.append_assoc]
  exact (restores_hash l.hash).bind ((restores_block h.block).bind
    ((restores_status h.status).bind ((restores_nat h.seq).last .pure)))

end Record

end BlockTree
