import BlockTree.Proofs.Codec
import Mathlib.Tactic.IntervalCases
import Mathlib.Tactic.Ring

/-! The spellings of bytes. A text of digits is read if and only if its lower-case form is
what is written for the bytes, and a hash may have one mark in front of its digits. -/

namespace BlockTree

namespace Hex

variable {c : Char} {v position : Nat} {text rest : List Char} {bs : Bytes}

def digits : List Char :=
  "0123456789abcdefABCDEF".toList

/-- To be decided digit by digit, and not for each character that there is. -/
theorem forall_digits {p : Char → Prop} [DecidablePred p] (h : digits.all fun c => p c) :
    ∀ c ∈ digits, p c :=
  fun c hc => of_decide_eq_true (List.all_eq_true.mp h c hc)

theorem mem_digits_of_toNat {n : Nat} (h : c.toNat = n)
    (hn : 48 ≤ n ∧ n ≤ 57 ∨ 97 ≤ n ∧ n ≤ 102 ∨ 65 ≤ n ∧ n ≤ 70) : c ∈ digits := by
  rw [← Char.ofNat_toNat c, h]
  clear h
  rcases hn with ⟨hlow, hhigh⟩ | ⟨hlow, hhigh⟩ | ⟨hlow, hhigh⟩
  · interval_cases n <;> decide
  · interval_cases n <;> decide
  · interval_cases n <;> decide

theorem mem_digits_of_digitValue? (h : digitValue? c = some v) : c ∈ digits := by
  refine mem_digits_of_toNat rfl ?_
  unfold digitValue? at h
  by_cases hdecimal : '0' ≤ c ∧ c ≤ '9'
  · exact .inl hdecimal
  · by_cases hsmall : 'a' ≤ c ∧ c ≤ 'f'
    · exact .inr (.inl hsmall)
    · by_cases hcapital : 'A' ≤ c ∧ c ≤ 'F'
      · exact .inr (.inr hcapital)
      · simp [hdecimal, hsmall, hcapital] at h

theorem toNat_digit (h : v < 16) : (digit v).toNat = if v < 10 then 48 + v else 87 + v := by
  revert v
  decide

theorem toLower_digit (h : v < 16) : (digit v).toLower = digit v := by
  revert v
  decide

theorem toNat_toLower (c : Char) : c.toLower.toNat =
    if 65 ≤ c.toNat ∧ c.toNat ≤ 90 then c.toNat + 32 else c.toNat := by
  unfold Char.toLower
  by_cases h : c.val ≥ 'A'.val ∧ c.val ≤ 'Z'.val
  · have hn : 65 ≤ c.toNat ∧ c.toNat ≤ 90 := h
    have hsum : (c.val + ('a'.val - 'A'.val)).toNat = (c.toNat + 32) % 2 ^ 32 :=
      UInt32.toNat_add c.val _
    rw [dif_pos h, if_pos hn]
    exact hsum.trans (Nat.mod_eq_of_lt (by omega))
  · have hn : ¬ (65 ≤ c.toNat ∧ c.toNat ≤ 90) := h
    rw [dif_neg h, if_neg hn]

theorem mem_digits_of_toLower (h : v < 16) (hc : c.toLower = digit v) : c ∈ digits := by
  refine mem_digits_of_toNat rfl ?_
  have hlower := toNat_toLower c
  rw [hc, toNat_digit h] at hlower
  split at hlower <;> split at hlower <;> omega

theorem digitValue?_eq_some_iff (h : v < 16) : digitValue? c = some v ↔ c.toLower = digit v := by
  have hall : ∀ c ∈ digits, ∀ v < 16, digitValue? c = some v ↔ c.toLower = digit v :=
    forall_digits (by decide)
  constructor
  · intro hc
    exact (hall c (mem_digits_of_digitValue? hc) v h).mp hc
  · intro hc
    exact (hall c (mem_digits_of_toLower h hc) v h).mpr hc

theorem digitValue?_lt (h : digitValue? c = some v) : v < 16 := by
  have hall : ∀ c ∈ digits, (digitValue? c).all (· < 16) := forall_digits (by decide)
  have hc := hall c (mem_digits_of_digitValue? h)
  simpa [h] using hc

/-- The text spells the bytes, with digits of either case. -/
def Spells (text : List Char) (bs : Bytes) : Prop :=
  text.map Char.toLower = encode bs

theorem Spells.of_encode (bs : Bytes) : Spells (encode bs) bs := by
  unfold Spells
  refine (List.map_congr_left fun c hc => ?_).trans (List.map_id _)
  obtain ⟨v, hv, rfl⟩ := exists_digit hc
  exact toLower_digit hv

theorem Spells.length_eq (h : Spells text bs) : text.length = 2 * bs.length := by
  have hlen := congrArg List.length h
  rwa [List.length_map, length_encode] at hlen

theorem Spells.mem_digits (h : Spells text bs) (hc : c ∈ text) : c ∈ digits := by
  have hlower : c.toLower ∈ encode bs := h ▸ List.mem_map_of_mem hc
  obtain ⟨v, hv, he⟩ := exists_digit hlower
  exact mem_digits_of_toLower hv he

theorem byteLength_of_digits (h : ∀ c ∈ text, c ∈ digits) : byteLength text = text.length := by
  have hsize : ∀ c ∈ digits, c.utf8Size = 1 := forall_digits (by decide)
  induction text with
  | nil => rfl
  | cons c text ih =>
    rw [byteLength, hsize c (h c List.mem_cons_self), List.length_cons, Nat.add_comm,
      ih fun d hd => h d (List.mem_cons_of_mem _ hd)]

theorem exists_pair {n : Nat} (hlen : text.length = 2 * (n + 1)) :
    ∃ c d rest, text = c :: d :: rest ∧ rest.length = 2 * n := by
  rcases text with _ | ⟨c, _ | ⟨d, rest⟩⟩
  · simp at hlen
  · simp only [List.length_cons, List.length_nil] at hlen
    omega
  · simp only [List.length_cons] at hlen
    exact ⟨c, d, rest, rfl, by omega⟩

theorem spells_cons_iff {c d : Char} {b : UInt8} : Spells (c :: d :: text) (b :: bs) ↔
    digitValue? c = some (b.toNat / 16) ∧ digitValue? d = some (b.toNat % 16) ∧
      Spells text bs := by
  have hb := b.toNat_lt
  rw [digitValue?_eq_some_iff (by omega), digitValue?_eq_some_iff (by omega)]
  simp [Spells, encode]

theorem Spells.pair {c d : Char} {high low : Nat} (hhigh : digitValue? c = some high)
    (hlow : digitValue? d = some low) (h : Spells text bs) :
    Spells (c :: d :: text) (UInt8.ofNat (16 * high + low) :: bs) := by
  have hh := digitValue?_lt hhigh
  have hl := digitValue?_lt hlow
  have hbyte : (UInt8.ofNat (16 * high + low)).toNat = 16 * high + low := by
    rw [UInt8.toNat_ofNat']
    omega
  have hdiv : (16 * high + low) / 16 = high := by omega
  have hmod : (16 * high + low) % 16 = low := by omega
  refine spells_cons_iff.mpr ⟨?_, ?_, h⟩
  · rw [hbyte, hdiv, hhigh]
  · rw [hbyte, hmod, hlow]

theorem spells_of_decodeFrom (h : decodeFrom position text = .ok bs) : Spells text bs := by
  fun_induction decodeFrom position text generalizing bs with
  | case1 =>
    cases h
    rfl
  | case7 position c d rest high low hlow hhigh cs hcs ih =>
    cases h
    exact (ih hcs).pair hhigh hlow
  | _ => cases h

theorem Spells.decodeFrom (h : Spells text bs) (position : Nat) :
    decodeFrom position text = .ok bs := by
  induction bs generalizing text position with
  | nil =>
    rw [List.length_eq_zero_iff.mp h.length_eq]
    rfl
  | cons b bs ih =>
    obtain ⟨c, d, rest, rfl, -⟩ := exists_pair h.length_eq
    obtain ⟨hhigh, hlow, hrest⟩ := spells_cons_iff.mp h
    have hbyte : UInt8.ofNat (16 * (b.toNat / 16) + b.toNat % 16) = b := by
      rw [Nat.div_add_mod]
      exact UInt8.ofNat_toNat
    rw [Hex.decodeFrom, hhigh, hlow]
    simp only [ih hrest, hbyte]

theorem decode_eq_ok_iff : decode text = .ok bs ↔ Spells text bs := by
  constructor
  · intro h
    unfold decode at h
    split at h
    · cases h
    · exact spells_of_decodeFrom h
  · intro h
    have heven : ¬ (2 * bs.length % 2 = 1) := by omega
    rw [decode, byteLength_of_digits fun c hc => h.mem_digits hc, h.length_eq, if_neg heven,
      h.decodeFrom]

theorem exists_spells {n : Nat} (hdigits : ∀ c ∈ text, c ∈ digits) (hlen : text.length = 2 * n) :
    ∃ bs, Spells text bs := by
  have hvalue : ∀ c ∈ digits, ∃ v < 16, digitValue? c = some v := forall_digits (by decide)
  induction n generalizing text with
  | zero =>
    rw [List.length_eq_zero_iff.mp hlen]
    exact ⟨[], rfl⟩
  | succ n ih =>
    obtain ⟨c, d, rest, rfl, hrest⟩ := exists_pair hlen
    obtain ⟨bs, hbs⟩ := ih (fun e he => hdigits e (by simp [he])) hrest
    obtain ⟨high, -, hhigh⟩ := hvalue c (hdigits c (by simp))
    obtain ⟨low, -, hlow⟩ := hvalue d (hdigits d (by simp))
    exact ⟨_, hbs.pair hhigh hlow⟩

theorem ofLittleEndian_append (bs cs : Bytes) :
    ofLittleEndian (bs ++ cs) = ofLittleEndian bs + 256 ^ bs.length * ofLittleEndian cs := by
  induction bs with
  | nil => simp [ofLittleEndian]
  | cons b bs ih =>
    rw [List.cons_append, ofLittleEndian, ofLittleEndian, ih, List.length_cons, Nat.pow_succ']
    ring

theorem ofBigEndian_cons (b : UInt8) (bs : Bytes) :
    ofBigEndian (b :: bs) = b.toNat * 256 ^ bs.length + ofBigEndian bs := by
  rw [ofBigEndian, List.reverse_cons, ofLittleEndian_append, List.length_reverse]
  simp only [ofLittleEndian, ofBigEndian]
  ring

theorem Spells.foldl_eq (h : Spells text bs) (n : Nat) :
    text.foldl (fun n c => 16 * n + (digitValue? c).getD 0) n =
      n * 256 ^ bs.length + ofBigEndian bs := by
  induction bs generalizing text n with
  | nil =>
    rw [List.length_eq_zero_iff.mp h.length_eq]
    simp [ofBigEndian, ofLittleEndian]
  | cons b bs ih =>
    obtain ⟨c, d, rest, rfl, -⟩ := exists_pair h.length_eq
    obtain ⟨hhigh, hlow, hrest⟩ := spells_cons_iff.mp h
    have hpair : 16 * (16 * n + b.toNat / 16) + b.toNat % 16 = n * 256 + b.toNat := by omega
    rw [List.foldl_cons, List.foldl_cons, hhigh, hlow, Option.getD_some, Option.getD_some,
      hpair, ih hrest, ofBigEndian_cons, List.length_cons, Nat.pow_succ']
    ring

/-- Digits are read as one number just as their bytes are, most significant first. -/
theorem Spells.natOf?_eq (h : Spells text bs) (hne : text ≠ []) :
    natOf? 16 text = some (ofBigEndian bs) := by
  have hall : text.all (isDigitOf 16) := by
    have hdigits : ∀ c ∈ digits, isDigitOf 16 c := forall_digits (by decide)
    exact List.all_eq_true.mpr fun c hc => hdigits c (h.mem_digits hc)
  rw [natOf?, if_pos ⟨hne, hall⟩, h.foldl_eq]
  simp

end Hex

namespace Hash

variable {text digits : List Char} {h k : Hash}

theorem stripMarker_of_digits (hdigits : ∀ c ∈ digits, c ∈ Hex.digits) :
    stripMarker digits = digits := by
  unfold stripMarker
  split
  · next rest =>
    have hx : 'x' ∈ Hex.digits := hdigits 'x' (by simp)
    exact absurd hx (by decide)
  · rfl

theorem parse_eq_ok_iff : parse text = .ok h ↔ Hex.Spells (stripMarker text) h.bytes := by
  rw [← Hex.decode_eq_ok_iff]
  unfold parse
  cases hd : Hex.decode (stripMarker text) with
  | error fault => simp
  | ok bs =>
    by_cases hlen : bs.length = 32
    · have hsame : (⟨bs, hlen⟩ : Hash) = h ↔ bs = h.bytes := by
        constructor
        · rintro rfl
          rfl
        · rintro rfl
          rfl
      simp [hlen, hsame]
    · have hne : bs ≠ h.bytes := fun he => hlen (he ▸ h.length_bytes)
      simp [hlen, hne]

/-- The text is 64 digits, of either case, with at most one mark in front. -/
def Writes (text digits : List Char) : Prop :=
  (text = digits ∨ text = '0' :: 'x' :: digits) ∧ digits.length = 64 ∧
    ∀ c ∈ digits, c ∈ Hex.digits

theorem Writes.stripMarker_eq (hw : Writes text digits) : stripMarker text = digits := by
  obtain ⟨rfl | rfl, -, hdigits⟩ := hw
  · exact stripMarker_of_digits hdigits
  · rfl

theorem Writes.length_eq (hw : Writes text digits) : text.length = 64 ∨ text.length = 66 := by
  obtain ⟨rfl | rfl, hlen, -⟩ := hw
  · exact .inl hlen
  · exact .inr (by simp [hlen])

theorem eq_or_marked (text : List Char) :
    text = stripMarker text ∨ text = '0' :: 'x' :: stripMarker text := by
  unfold stripMarker
  split
  · exact .inr rfl
  · exact .inl rfl

theorem writes_of_parse (hp : parse text = .ok h) : Writes text (stripMarker text) := by
  have hs := parse_eq_ok_iff.mp hp
  refine ⟨eq_or_marked text, ?_, fun c hc => hs.mem_digits hc⟩
  rw [hs.length_eq, h.length_bytes]

theorem Writes.exists_parse (hw : Writes text digits) : ∃ h, parse text = .ok h := by
  obtain ⟨bs, hbs⟩ := Hex.exists_spells hw.2.2 (n := 32) hw.2.1
  have hlen : bs.length = 32 := by
    have := hw.2.1
    have := hbs.length_eq
    omega
  refine ⟨⟨bs, hlen⟩, ?_⟩
  rw [parse_eq_ok_iff, hw.stripMarker_eq]
  exact hbs

theorem Writes.mem_digits (hw : Writes text digits) {c : Char} (hc : c ∈ text) :
    c = 'x' ∨ c ∈ Hex.digits := by
  obtain ⟨rfl | rfl, -, hdigits⟩ := hw
  · exact .inr (hdigits c hc)
  · rcases List.mem_cons.mp hc with rfl | hc
    · exact .inr (by decide)
    · rcases List.mem_cons.mp hc with rfl | hc
      · exact .inl rfl
      · exact .inr (hdigits c hc)

/-- A wrong length, a character beyond the first 128, a mark of the wrong case, or two marks. -/
def Malformed (text : List Char) : Prop :=
  text.length ≠ 64 ∧ text.length ≠ 66 ∨ (∃ c ∈ text, 127 < c.toNat) ∨
    (∃ rest, text = '0' :: 'X' :: rest) ∨ ∃ rest, text = '0' :: 'x' :: '0' :: 'x' :: rest

theorem Writes.not_malformed (hw : Writes text digits) : ¬ Malformed text := by
  have hsmall : ∀ c ∈ Hex.digits, c.toNat ≤ 127 := Hex.forall_digits (by decide)
  rintro (⟨hne, hne'⟩ | ⟨c, hc, hwide⟩ | ⟨rest, rfl⟩ | ⟨rest, rfl⟩)
  · rcases hw.length_eq with hlen | hlen
    · exact hne hlen
    · exact hne' hlen
  · rcases hw.mem_digits hc with rfl | hc
    · exact absurd hwide (by decide)
    · exact absurd (hsmall c hc) (by omega)
  · have hx : 'X' = 'x' ∨ 'X' ∈ Hex.digits := hw.mem_digits (by simp)
    exact absurd hx (by decide)
  · have hx : 'x' ∈ Hex.digits := hw.2.2 'x' (by simp [← hw.stripMarker_eq, stripMarker])
    exact absurd hx (by decide)

/-- A hash is read off 64 digits of either case with at most one mark in front, as the bytes
that they stand for, and off no other text. -/
theorem parse_exact (text other : List Char) (h k : Hash) :
    ((∃ h, parse text = .ok h) ↔ ∃ digits, Writes text digits) ∧
    (parse text = .ok h ↔ ∃ digits, Writes text digits ∧
      digits.map Char.toLower = h.text.toList ∧ Hex.natOf? 16 digits = some h.toNat) ∧
    parse h.text.toList = .ok h ∧
    (parse text = .ok h → parse other = .ok k → (h = k ↔
      (stripMarker text).map Char.toLower = (stripMarker other).map Char.toLower)) ∧
    (Malformed text → ∃ fault, parse text = .error fault) := by
  have htext : ∀ h : Hash, h.text.toList = Hex.encode h.bytes := fun h => String.toList_ofList
  refine ⟨?_, ?_, ?_, ?_, ?_⟩
  · constructor
    · rintro ⟨h, hp⟩
      exact ⟨_, writes_of_parse hp⟩
    · rintro ⟨digits, hw⟩
      exact hw.exists_parse
  · rw [htext]
    constructor
    · intro hp
      have hw := writes_of_parse hp
      have hs := parse_eq_ok_iff.mp hp
      refine ⟨_, hw, hs, hs.natOf?_eq fun hnil => ?_⟩
      have hlen := hw.2.1
      simp [hnil] at hlen
    · rintro ⟨digits, hw, hlower, -⟩
      rw [parse_eq_ok_iff, hw.stripMarker_eq]
      exact hlower
  · rw [htext, parse_eq_ok_iff, stripMarker_encode]
    exact .of_encode h.bytes
  · intro hp hq
    have hs : (stripMarker text).map Char.toLower = Hex.encode h.bytes := parse_eq_ok_iff.mp hp
    have ht : (stripMarker other).map Char.toLower = Hex.encode k.bytes := parse_eq_ok_iff.mp hq
    constructor
    · rintro rfl
      rw [hs, ht]
    · intro he
      have hsame : parse text = .ok k := parse_eq_ok_iff.mpr (he.trans ht)
      exact Except.ok.inj (hp.symm.trans hsame)
  · intro hbad
    cases hp : parse text with
    | ok h => exact absurd hbad (writes_of_parse hp).not_malformed
    | error fault => exact ⟨fault, rfl⟩

def capitals : List Char :=
  (List.replicate 32 ['A', 'B']).flatten

def marked : List Char :=
  '0' :: 'x' :: (List.replicate 32 ['a', 'B']).flatten

/-- A mark of the wrong case. -/
def mismarked : List Char :=
  '0' :: 'X' :: capitals

theorem parse_exact_marked : parse capitals = .ok (ofBytes (List.replicate 32 0xab)) ∧
    parse marked = .ok (ofBytes (List.replicate 32 0xab)) ∧
    (stripMarker capitals).map Char.toLower = (stripMarker marked).map Char.toLower ∧
    ∃ fault, parse mismarked = .error fault := by
  have hcapitals : parse capitals = .ok (ofBytes (List.replicate 32 0xab)) := rfl
  have hmarked : parse marked = .ok (ofBytes (List.replicate 32 0xab)) := rfl
  obtain ⟨-, -, -, hsame, -⟩ := parse_exact capitals marked _ _
  obtain ⟨-, -, -, -, hbad⟩ := parse_exact mismarked [] .zero .zero
  exact ⟨hcapitals, hmarked, (hsame hcapitals hmarked).mp rfl,
    hbad (.inr (.inr (.inl ⟨capitals, rfl⟩)))⟩

end Hash

end BlockTree
