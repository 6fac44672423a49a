import BlockTree.Program
import BlockTree.Proofs.JsonText
import BlockTree.Proofs.Spelling
import Mathlib.Data.List.Forall2
import Mathlib.Data.List.Nodup

/-! Files of blocks. The text of a document gives back what the document was written for, and
so does every text in which hashes and scripts are spelled with other digits. -/

namespace BlockTree

open Json (Value)

namespace Document

def hashFields : List String :=
  ["hash", "tx_hash", "prev_block_hash", "merkle_root"]

/-- The fields that hold digits of either case. -/
def digitFields : List String :=
  ["script_sig", "script_pubkey"] ++ hashFields

mutual

/-- A value as it stands in a field of that name, or in none, and the same value with other
digits in it. -/
inductive Respelt : Option String → Value → Value → Prop
  | null {field : Option String} : Respelt field .null .null
  | bool {field : Option String} (b : Bool) : Respelt field (.bool b) (.bool b)
  | int {field : Option String} (i : Int) : Respelt field (.int i) (.int i)
  | real {field : Option String} (digits : List Char) :
    Respelt field (.real digits) (.real digits)
  | text {field : Option String} (s : Option (List Char)) : Respelt field (.text s) (.text s)
  | digits {name : String} {s t : List Char} : name ∈ digitFields →
    t.map Char.toLower = s.map Char.toLower → Respelt (some name) (.text (some s)) (.text (some t))
  | marked {name : String} {s t : List Char} : name ∈ hashFields →
    t.map Char.toLower = s.map Char.toLower →
      Respelt (some name) (.text (some s)) (.text (some ('0' :: 'x' :: t)))
  | list {field : Option String} {vs ws : List Value} : RespeltItems vs ws →
    Respelt field (.list vs) (.list ws)
  | object {field : Option String} {fs gs : List (Option (List Char) × Value)} :
    RespeltFields fs gs → Respelt field (.object fs) (.object gs)

inductive RespeltItems : List Value → List Value → Prop
  | nil : RespeltItems [] []
  | cons {v w : Value} {vs ws : List Value} : Respelt none v w → RespeltItems vs ws →
    RespeltItems (v :: vs) (w :: ws)

inductive RespeltFields :
    List (Option (List Char) × Value) → List (Option (List Char) × Value) → Prop
  | nil : RespeltFields [] []
  | cons {name : Option (List Char)} {v w : Value}
    {fs gs : List (Option (List Char) × Value)} : Respelt (name.map String.ofList) v w →
      RespeltFields fs gs → RespeltFields ((name, v) :: fs) ((name, w) :: gs)

end

theorem RespeltFields.cons_named {name : String} {v w : Value}
    {fs gs : List (Option (List Char) × Value)} (hv : Respelt (some name) v w)
    (hfs : RespeltFields fs gs) :
    RespeltFields ((some name.toList, v) :: fs) ((some name.toList, w) :: gs) :=
  .cons (by simpa using hv) hfs

mutual

theorem Respelt.refl : ∀ (field : Option String) (v : Value), Respelt field v v
  | _, .null => .null
  | _, .bool b => .bool b
  | _, .int i => .int i
  | _, .real digits => .real digits
  | _, .text s => .text s
  | _, .list vs => .list (RespeltItems.refl vs)
  | _, .object fs => .object (RespeltFields.refl fs)

theorem RespeltItems.refl : ∀ vs : List Value, RespeltItems vs vs
  | [] => .nil
  | v :: vs => .cons (Respelt.refl none v) (RespeltItems.refl vs)

theorem RespeltFields.refl : ∀ fs : List (Option (List Char) × Value), RespeltFields fs fs
  | [] => .nil
  | (name, v) :: fs => .cons (Respelt.refl (name.map String.ofList) v) (RespeltFields.refl fs)

end

mutual

theorem Respelt.exact : ∀ {field : Option String} {v w : Value}, Respelt field v w → v.Exact →
    w.Exact
  | _, _, _, .null, h => h
  | _, _, _, .bool _, h => h
  | _, _, _, .int _, h => h
  | _, _, _, .real _, h => h
  | _, _, _, .text _, h => h
  | _, _, _, .digits _ _, _ => rfl
  | _, _, _, .marked _ _, _ => rfl
  | _, _, _, .list hitems, h => hitems.exact h
  | _, _, _, .object hfields, h => hfields.exact h

theorem RespeltItems.exact : ∀ {vs ws : List Value}, RespeltItems vs ws → Value.ExactItems vs →
    Value.ExactItems ws
  | _, _, .nil, h => h
  | _, _, .cons hv hvs, h => ⟨hv.exact h.1, hvs.exact h.2⟩

theorem RespeltFields.exact : ∀ {fs gs : List (Option (List Char) × Value)}, RespeltFields fs gs →
    Value.ExactFields fs → Value.ExactFields gs
  | _, _, .nil, h => h
  | _, _, .cons hv hfs, h => ⟨h.1, hv.exact h.2.1, hfs.exact h.2.2⟩

end

section Fields

variable {field : Option String} {fs : List (String × Value)} {ws : List Value} {w : Value}

theorem mapM_of_forall₂ {α β : Type} {read : α → Option β} {xs : List α} {ys : List β}
    (h : List.Forall₂ (fun x y => read x = some y) xs ys) : xs.mapM read = some ys := by
  induction h with
  | nil => rfl
  | cons hread _ ih =>
    rw [List.mapM_cons, hread, ih]
    rfl

theorem filter_eq_singleton {κ α : Type} [BEq κ] [LawfulBEq κ] {entries : List (κ × α)}
    (hnodup : (entries.map Prod.fst).Nodup) {k : κ} {v : α} (h : (k, v) ∈ entries) :
    entries.filter (fun entry => entry.1 == k) = [(k, v)] := by
  induction entries with
  | nil => cases h
  | cons entry entries ih =>
    rw [List.map_cons, List.nodup_cons] at hnodup
    rcases List.mem_cons.mp h with rfl | h
    · have hrest : entries.filter (fun entry => entry.1 == k) = [] := by
        rw [List.filter_eq_nil_iff]
        intro other hother he
        exact hnodup.1 (List.mem_map.mpr ⟨other, hother, by simpa using he⟩)
      rw [List.filter_cons_of_pos (by simp), hrest]
    · have hne : entry.1 ≠ k := by
        rintro rfl
        exact hnodup.1 (List.mem_map.mpr ⟨_, h, rfl⟩)
      rw [List.filter_cons, if_neg (by simpa using hne), ih hnodup.2 h]

/-- The fields of a record, each with another value. -/
def refilled (fs : List (String × Value)) (ws : List Value) : List (Option (List Char) × Value) :=
  (fs.zip ws).map fun (f, w) => (some f.1.toList, w)

theorem RespeltFields.exists_refilled {gs : List (Option (List Char) × Value)}
    (h : RespeltFields (fs.map fun (name, value) => (some name.toList, value)) gs) :
    ∃ ws, gs = refilled fs ws ∧
      List.Forall₂ (fun (f : String × Value) w => Respelt (some f.1) f.2 w) fs ws := by
  induction fs generalizing gs with
  | nil =>
    cases h
    exact ⟨[], rfl, .nil⟩
  | cons f fs ih =>
    cases h with
    | @cons _ _ w _ gs hv hfs =>
      obtain ⟨ws, rfl, hall⟩ := ih hfs
      refine ⟨w :: ws, rfl, .cons ?_ hall⟩
      simpa using hv

theorem fields?_refilled (hnodup : (fs.map Prod.fst).Nodup) (hlen : fs.length = ws.length) :
    fields? (fs.map Prod.fst) (.object (refilled fs ws)) = some (ws.map some) := by
  have hkeys : ((refilled fs ws).map Prod.fst).Nodup := by
    have hnames : (refilled fs ws).map Prod.fst =
        ((fs.zip ws).map Prod.fst).map fun f => some f.1.toList := by
      simp [refilled, Function.comp_def]
    rw [hnames, List.map_fst_zip hlen.le]
    have hall := List.Nodup.map (f := fun name : String => some name.toList)
      (fun name other he => String.toList_inj.mp (Option.some.inj he)) hnodup
    rwa [List.map_map] at hall
  have hnone : ¬ (refilled fs ws).any (fun entry => entry.1.isNone) = true := by
    simp [refilled]
  rw [fields?, if_neg hnone]
  apply mapM_of_forall₂
  rw [List.forall₂_map_left_iff, List.forall₂_map_right_iff, List.forall₂_iff_zip]
  refine ⟨hlen, fun {f w} hfw => ?_⟩
  have hmem : (some f.1.toList, w) ∈ refilled fs ws := List.mem_map.mpr ⟨(f, w), hfw, rfl⟩
  rw [filter_eq_singleton hkeys hmem]

/-- The fields of a respelt record are found under their names, each respelt. -/
theorem Respelt.fields? (h : Respelt field (Json.record fs) w)
    (hnodup : (fs.map Prod.fst).Nodup) : ∃ ws,
      Document.fields? (fs.map Prod.fst) w = some (ws.map some) ∧
        List.Forall₂ (fun (f : String × Value) w => Respelt (some f.1) f.2 w) fs ws := by
  cases h with
  | object hfields =>
    obtain ⟨ws, rfl, hall⟩ := hfields.exists_refilled
    exact ⟨ws, fields?_refilled hnodup hall.length_eq, hall⟩

end Fields

section Leaves

variable {field : Option String} {name : String} {w : Value}

theorem spells_of_map_toLower {bs : Bytes} {t : List Char}
    (h : t.map Char.toLower = (Hex.encode bs).map Char.toLower) : Hex.Spells t bs :=
  h.trans (Hex.Spells.of_encode bs)

theorem hash?_of_respelt {h : Hash} (hw : Respelt field (ofHash h) w) : hash? w = some h := by
  have hread {text digits : List Char} (hstrip : Hash.stripMarker text = digits)
      (hspells : Hex.Spells digits h.bytes) : hash? (.text (some text)) = some h := by
    have hparse : Hash.parse text = .ok h := Hash.parse_eq_ok_iff.mpr (hstrip ▸ hspells)
    simp [hash?, chars?, Hash.parse?, hparse, Except.toOption]
  have hbare {t : List Char} (hspells : Hex.Spells t h.bytes) :
      hash? (.text (some t)) = some h :=
    hread (Hash.stripMarker_of_digits fun _ => hspells.mem_digits) hspells
  cases hw with
  | text => exact hbare (Hex.Spells.of_encode h.bytes)
  | digits _ ht => exact hbare (spells_of_map_toLower ht)
  | marked _ ht => exact hread rfl (spells_of_map_toLower ht)

theorem script?_of_respelt {bs : Bytes} (hname : name ∉ hashFields)
    (hw : Respelt (some name) (ofScript bs) w) : script? w = some bs := by
  have hread {t : List Char} (hspells : Hex.Spells t bs) :
      script? (.text (some t)) = some bs := by
    simp [script?, chars?, Hex.decode_eq_ok_iff.mpr hspells, Except.toOption]
  cases hw with
  | text => exact hread (Hex.Spells.of_encode bs)
  | digits _ ht => exact hread (spells_of_map_toLower ht)
  | marked hmem _ => exact absurd hmem hname

theorem u32?_of_respelt {n : UInt32} (hw : Respelt field (ofNat n.toNat) w) : u32? w = some n := by
  cases hw
  simp [u32?, natBelow?, n.toNat_lt]

theorem u64?_of_respelt {n : Nat} (hn : n < 2 ^ 64) (hw : Respelt field (ofNat n) w) :
    u64? w = some n := by
  cases hw
  simp [u64?, natBelow?, hn]

theorem i64?_of_respelt {i : Int64} (hw : Respelt field (.int i.toInt) w) :
    i64? w = some i.toInt := by
  cases hw
  exact if_pos ⟨i.le_toInt, i.toInt_lt⟩

theorem list?_of_respelt {α : Type} {read : Value → Option α} {write : α → Value} {xs : List α}
    (hread : ∀ x ∈ xs, ∀ w, Respelt none (write x) w → read w = some x)
    (hw : Respelt field (.list (xs.map write)) w) : list? read w = some xs := by
  cases hw with
  | @list _ _ ws hitems =>
    show ws.mapM read = some xs
    induction xs generalizing ws with
    | nil =>
      cases hitems
      rfl
    | cons x xs ih =>
      cases hitems with
      | cons hv hvs =>
        have hrest := ih (fun y hy => hread y (List.mem_cons_of_mem _ hy)) hvs
        rw [List.mapM_cons, hread x List.mem_cons_self _ hv, hrest]
        rfl

end Leaves

section Records

variable {field : Option String} {w : Value}

theorem outPoint?_of_respelt {p : OutPoint} (hw : Respelt field (ofOutPoint p) w) :
    outPoint? w = some p := by
  obtain ⟨ws, hfields, hall⟩ := hw.fields? (by simp)
  rcases hall with _ | ⟨htxHash, _ | ⟨hindex, _ | _⟩⟩
  simp only [List.map_cons, List.map_nil] at hfields
  simp [outPoint?, hfields, hash?_of_respelt htxHash, u32?_of_respelt hindex]

theorem txInput?_of_respelt {input : TxInput} (hw : Respelt field (ofTxInput input) w) :
    txInput? w = some input := by
  obtain ⟨ws, hfields, hall⟩ := hw.fields? (by simp)
  rcases hall with _ | ⟨hclaimed, _ | ⟨hscript, _ | _⟩⟩
  simp only [List.map_cons, List.map_nil] at hfields
  have hname : "script_sig" ∉ hashFields := by decide
  simp [txInput?, hfields, outPoint?_of_respelt hclaimed, script?_of_respelt hname hscript]

theorem txOutput?_of_respelt {output : TxOutput} (hw : Respelt field (ofTxOutput output) w) :
    txOutput? w = some output := by
  obtain ⟨ws, hfields, hall⟩ := hw.fields? (by simp)
  rcases hall with _ | ⟨hvalue, _ | ⟨hscript, _ | _⟩⟩
  simp only [List.map_cons, List.map_nil] at hfields
  have hname : "script_pubkey" ∉ hashFields := by decide
  simp [txOutput?, hfields, u64?_of_respelt output.value.toNat_lt hvalue,
    script?_of_respelt hname hscript]

theorem transaction?_of_respelt {tx : Transaction} (hw : Respelt field (ofTransaction tx) w) :
    transaction? w = some tx := by
  obtain ⟨ws, hfields, hall⟩ := hw.fields? (by simp)
  rcases hall with _ | ⟨hversion, _ | ⟨hinputs, _ | ⟨houtputs, _ | ⟨hlockTime, _ | _⟩⟩⟩⟩
  simp only [List.map_cons, List.map_nil] at hfields
  have hinputs := list?_of_respelt (fun _ _ _ => txInput?_of_respelt) hinputs
  have houtputs := list?_of_respelt (fun _ _ _ => txOutput?_of_respelt) houtputs
  simp [transaction?, hfields, u32?_of_respelt hversion, hinputs, houtputs,
    u32?_of_respelt hlockTime]

theorem header?_of_respelt {h : Header} (hw : Respelt field (ofHeader h) w) :
    header? w = some h := by
  obtain ⟨ws, hfields, hall⟩ := hw.fields? (by simp)
  rcases hall with _ | ⟨hversion, _ | ⟨hprevHash, _ | ⟨hmerkleRoot, _ | ⟨htimestamp, _ |
    ⟨hbits, _ | ⟨hnonce, _ | _⟩⟩⟩⟩⟩⟩
  simp only [List.map_cons, List.map_nil] at hfields
  simp [header?, hfields, u32?_of_respelt hversion, hash?_of_respelt hprevHash,
    hash?_of_respelt hmerkleRoot, i64?_of_respelt htimestamp, u32?_of_respelt hbits,
    u32?_of_respelt hnonce]

theorem block?_of_respelt {b : Block} (hw : Respelt field (ofBlock b) w) :
    block? w = some b := by
  obtain ⟨ws, hfields, hall⟩ := hw.fields? (by simp)
  rcases hall with _ | ⟨hheader, _ | ⟨htransactions, _ | _⟩⟩
  simp only [List.map_cons, List.map_nil] at hfields
  have htransactions := list?_of_respelt (fun _ _ _ => transaction?_of_respelt) htransactions
  simp [block?, hfields, header?_of_respelt hheader, htransactions]

theorem work?_of_respelt {work : Work} (hw : Respelt field (ofWork work) w) :
    work? w = some work := by
  have hdigits := list?_of_respelt (fun _ _ _ => u32?_of_respelt) hw
  rw [work?, hdigits, Option.map_some, Work.ofDigits_digits]

/-- The numbers of a link fit in 64 bits. -/
structure Sized (l : Link) : Prop where
  seq : l.seq < 2 ^ 64
  height : ∀ h w : Nat, l.status = .resolved h w → h < 2 ^ 64

theorem status?_of_respelt {s : LinkStatus} {name : String} (hname : name ∉ digitFields)
    (hheight : ∀ h w : Nat, s = .resolved h w → h < 2 ^ 64)
    (hw : Respelt (some name) (ofStatus s) w) : status? w = some s := by
  cases s with
  | orphan =>
    cases hw with
    | text => rfl
    | digits hmem _ => exact absurd hmem hname
    | marked hmem _ => exact absurd (List.mem_append_right _ hmem) hname
  | resolved height work =>
    cases hw with
    | object hfields =>
      obtain ⟨ws, rfl, hall⟩ := hfields.exists_refilled
      rcases hall with _ | ⟨hresolved, _ | _⟩
      obtain ⟨ws, hfields, hall⟩ := hresolved.fields? (by simp)
      rcases hall with _ | ⟨hheightField, _ | ⟨hwork, _ | _⟩⟩
      simp only [List.map_cons, List.map_nil] at hfields
      simp [status?, refilled, hfields, u64?_of_respelt (hheight _ _ rfl) hheightField,
        work?_of_respelt hwork]

theorem link?_of_respelt {l : Link} (hsized : Sized l) (hw : Respelt field (ofLink l) w) :
    link? w = some l := by
  obtain ⟨ws, hfields, hall⟩ := hw.fields? (by simp)
  rcases hall with _ | ⟨hhash, _ | ⟨hblock, _ | ⟨hstatus, _ | ⟨hseq, _ | _⟩⟩⟩⟩
  simp only [List.map_cons, List.map_nil] at hfields
  have hname : "status" ∉ digitFields := by decide
  simp [link?, hfields, hash?_of_respelt hhash, block?_of_respelt hblock,
    status?_of_respelt hname hsized.height hstatus, u64?_of_respelt hsized.seq hseq]

end Records

section Texts

theorem exact_list {α : Type} {write : α → Value} {xs : List α}
    (h : ∀ x ∈ xs, (write x).Exact) : (Value.list (xs.map write)).Exact := by
  induction xs with
  | nil => trivial
  | cons x xs ih =>
    exact ⟨h x List.mem_cons_self, ih fun y hy => h y (List.mem_cons_of_mem _ hy)⟩

theorem exact_record {fs : List (String × Value)} (h : ∀ f ∈ fs, f.2.Exact) :
    (Json.record fs).Exact := by
  induction fs with
  | nil => trivial
  | cons f fs ih =>
    exact ⟨rfl, h f List.mem_cons_self, ih fun g hg => h g (List.mem_cons_of_mem _ hg)⟩

theorem exact_ofNat {n : Nat} (h : n < 2 ^ 64) : (ofNat n).Exact := by
  constructor
  · omega
  · exact_mod_cast h

theorem exact_u32 (n : UInt32) : (ofNat n.toNat).Exact :=
  exact_ofNat (n.toNat_lt.trans (by decide))

theorem exact_ofHash (h : Hash) : (ofHash h).Exact :=
  rfl

theorem exact_ofScript (bs : Bytes) : (ofScript bs).Exact :=
  rfl

theorem exact_ofOutPoint (p : OutPoint) : (ofOutPoint p).Exact :=
  exact_record (by simp [exact_ofHash, exact_u32])

theorem exact_ofTxInput (input : TxInput) : (ofTxInput input).Exact :=
  exact_record (by simp [exact_ofOutPoint, exact_ofScript])

theorem exact_ofTxOutput (output : TxOutput) : (ofTxOutput output).Exact :=
  exact_record (by simp [exact_ofNat output.value.toNat_lt, exact_ofScript])

theorem exact_ofTransaction (tx : Transaction) : (ofTransaction tx).Exact := by
  have hinputs := exact_list fun input (_ : input ∈ tx.inputs) => exact_ofTxInput input
  have houtputs := exact_list fun output (_ : output ∈ tx.outputs) => exact_ofTxOutput output
  exact exact_record (by simp [exact_u32, hinputs, houtputs])

theorem exact_ofHeader (h : Header) : (ofHeader h).Exact := by
  have htimestamp : (Value.int h.timestamp.toInt).Exact :=
    ⟨h.timestamp.le_toInt, h.timestamp.toInt_lt.trans (by decide)⟩
  exact exact_record (by simp [exact_u32, exact_ofHash, htimestamp])

theorem exact_ofBlock (b : Block) : (ofBlock b).Exact := by
  have htransactions := exact_list fun tx (_ : tx ∈ b.transactions) => exact_ofTransaction tx
  exact exact_record (by simp [exact_ofHeader, htransactions])

theorem exact_ofStatus {s : LinkStatus}
    (hheight : ∀ h w : Nat, s = .resolved h w → h < 2 ^ 64) : (ofStatus s).Exact := by
  cases s with
  | orphan => rfl
  | resolved height work =>
    have hwork : (ofWork work).Exact := exact_list fun d _ => exact_u32 d
    have hplace : (Json.record [("height", ofNat height), ("work", ofWork work)]).Exact :=
      exact_record (by simp [exact_ofNat (hheight _ _ rfl), hwork])
    exact exact_record (by simp [hplace])

theorem exact_ofLink {l : Link} (h : Sized l) : (ofLink l).Exact :=
  exact_record (by simp [exact_ofHash, exact_ofBlock, exact_ofStatus h.height, exact_ofNat h.seq])

end Texts

/-- Files of blocks lose nothing, and neither does a link. Nor does it matter in which case the
digits are written, or whether a mark stands in front of those of a hash. -/
theorem lossless :
    (∀ blocks : List Block,
      Block.ofText? (Value.list (blocks.map ofBlock)).render = some blocks) ∧
    (∀ l : Link, Sized l → (Json.parse (ofLink l).render.toList).bind link? = some l) ∧
    (∀ (blocks : List Block) (w : Value), Respelt none (.list (blocks.map ofBlock)) w →
      Block.ofText? w.render = some blocks) ∧
    ∀ (l : Link) (w : Value), Sized l → Respelt none (ofLink l) w →
      (Json.parse w.render.toList).bind link? = some l := by
  have hparse {v w : Value} (hw : Respelt none v w) (hv : v.Exact) :
      Json.parse w.render.toList = some w := by
    rw [Value.render, String.toList_ofList]
    exact Json.parse_chars (hw.exact hv)
  have hblocks (blocks : List Block) (w : Value)
      (hw : Respelt none (.list (blocks.map ofBlock)) w) :
      Block.ofText? w.render = some blocks := by
    have hexact := exact_list fun b (_ : b ∈ blocks) => exact_ofBlock b
    rw [Block.ofText?, hparse hw hexact, Option.bind_some]
    exact list?_of_respelt (fun _ _ _ => block?_of_respelt) hw
  have hlink (l : Link) (w : Value) (hl : Sized l) (hw : Respelt none (ofLink l) w) :
      (Json.parse w.render.toList).bind link? = some l := by
    rw [hparse hw (exact_ofLink hl), Option.bind_some]
    exact link?_of_respelt hl hw
  exact ⟨fun blocks => hblocks blocks _ (.refl none _),
    fun l hl => hlink l _ hl (.refl none _), hblocks, hlink⟩

/-- Before the epoch, and without a transaction. -/
def earlyBlock : Block where
  header := ⟨1, .ofBytes (List.replicate 32 0xab), .zero, -1, 0x207fffff, 0⟩
  transactions := []

/-- The document of the block, with a mark and capitals in the hash of its parent. -/
def earlyMarked : Value :=
  Json.record
    [("header", Json.record
      [("version", .int 1), ("prev_block_hash", .text (some Hash.marked)),
        ("merkle_root", ofHash .zero), ("timestamp", .int (-1)), ("bits", .int 0x207fffff),
        ("nonce", .int 0)]),
      ("transactions", .list [])]

def earlyLink : Link :=
  .resolved earlyBlock 3 (2 ^ 70)

def earlyLinkMarked : Value :=
  Json.record
    [("hash", ofHash earlyLink.hash), ("block", earlyMarked),
      ("status", ofStatus earlyLink.status), ("seq", ofNat earlyLink.seq)]

theorem lossless_earlyMarked :
    Block.ofText? (Value.list [earlyMarked]).render = some [earlyBlock] ∧
      (Json.parse earlyLinkMarked.render.toList).bind link? = some earlyLink := by
  have hmarked : Respelt (some "prev_block_hash") (ofHash earlyBlock.header.prevHash)
      (.text (some Hash.marked)) := .marked (by decide) (by decide)
  have hblock {field : Option String} : Respelt field (ofBlock earlyBlock) earlyMarked :=
    .object (.cons (.object (.cons (.int 1) (.cons_named hmarked (.refl _)))) (.refl _))
  have hlink : Respelt none (ofLink earlyLink) earlyLinkMarked :=
    .object (.cons (.refl _ _) (.cons hblock (.refl _)))
  have hsized : Sized earlyLink := by
    refine ⟨by decide, fun h w hs => ?_⟩
    cases hs
    decide
  exact ⟨lossless.2.2.1 [earlyBlock] _ (.list (.cons hblock .nil)),
    lossless.2.2.2 earlyLink _ hsized hlink⟩

end Document

end BlockTree
