import BlockTree.Json.Parse
import Mathlib.Data.List.Basic
import Mathlib.Data.List.TakeDrop
import Mathlib.Tactic.IntervalCases

/-! JSON text and what is read from it. Compact text of a value, with more text behind it that
no number could run into, is read as that value and leaves the text behind. -/

namespace BlockTree.Json

open Decimal (isDigit natOf)

section Numbers

variable {c : Char} {rest : List Char} {n : Nat}

/-- What may stand behind a value: nothing, or the mark that ends or parts values. -/
def Stops (rest : List Char) : Prop :=
  ∀ c ∈ rest.head?, c ∈ [',', ']', '\x7d']

theorem stops_nil : Stops [] := by
  simp [Stops]

theorem Stops.head (h : Stops (c :: rest)) : c = ',' ∨ c = ']' ∨ c = '\x7d' := by
  simpa [Stops] using h

theorem stops_itemsChars (vs : List Value) (rest : List Char) :
    Stops (Value.itemsChars vs ++ rest) := by
  cases vs <;> simp [Stops, Value.itemsChars]

theorem stops_fieldsChars (fs : List (Option (List Char) × Value)) (rest : List Char) :
    Stops (Value.fieldsChars fs ++ rest) := by
  cases fs <;> simp [Stops, Value.fieldsChars]

theorem length_itemsChars_pos (vs : List Value) : 0 < (Value.itemsChars vs).length := by
  cases vs <;> simp [Value.itemsChars]

theorem length_fieldsChars_pos (fs : List (Option (List Char) × Value)) :
    0 < (Value.fieldsChars fs).length := by
  cases fs <;> simp [Value.fieldsChars]

theorem isDigit_of_mem_natDigits (h : c ∈ natDigits n) : isDigit c :=
  Nat.isDigit_of_mem_toDigits (by decide) (by decide) h

theorem exists_natDigits_eq_cons (n : Nat) :
    ∃ c digits, natDigits n = c :: digits ∧ isDigit c := by
  cases hd : natDigits n with
  | nil => exact absurd hd Nat.toDigits_ne_nil
  | cons c digits => exact ⟨c, digits, rfl, isDigit_of_mem_natDigits (hd ▸ List.mem_cons_self)⟩

theorem natOf_natDigits (n : Nat) : natOf (natDigits n) = n :=
  Nat.ofDigitChars_toDigits (by decide) (by decide)

theorem head?_natDigits (hn : n ≠ 0) : (natDigits n).head? ≠ some '0' := by
  induction n using Nat.strong_induction_on with
  | _ n ih =>
    rw [natDigits, Nat.toDigits_eq_if (by decide)]
    split
    · next hlt => interval_cases n <;> first | exact absurd rfl hn | decide
    · next hge =>
      rw [List.head?_append_of_ne_nil _ Nat.toDigits_ne_nil]
      exact ih (n / 10) (by omega) (by omega)

theorem takeDigits_natDigits (h : Stops rest) (n : Nat) :
    takeDigits (natDigits n ++ rest) = some (natDigits n, rest) := by
  have hrest : rest.takeWhile isDigit = [] ∧ rest.dropWhile isDigit = rest := by
    cases rest with
    | nil => exact ⟨rfl, rfl⟩
    | cons c rest =>
      have hno : isDigit c = false := by rcases h.head with rfl | rfl | rfl <;> rfl
      simp [hno]
  have hall : ∀ c ∈ natDigits n, isDigit c := fun c => isDigit_of_mem_natDigits
  rw [takeDigits, List.span_eq_takeWhile_dropWhile, List.takeWhile_append_of_pos hall,
    List.dropWhile_append_of_pos hall, hrest.1, hrest.2, List.append_nil]
  obtain ⟨c, digits, hd, -⟩ := exists_natDigits_eq_cons n
  rw [hd]

theorem takeFraction_of_stops (h : Stops rest) : takeFraction rest = some ([], rest) := by
  cases rest with
  | nil => rfl
  | cons c rest =>
    rcases h.head with rfl | rfl | rfl <;> rfl

theorem takeExponent_of_stops (h : Stops rest) : takeExponent rest = some ([], rest) := by
  cases rest with
  | nil => rfl
  | cons c rest =>
    rcases h.head with rfl | rfl | rfl <;> rfl

theorem unsigned_natDigits (h : Stops rest) (negative : Bool) (n : Nat) :
    unsigned negative (natDigits n ++ rest) =
      some (classify negative (natDigits n) [], rest) := by
  have hzero : ¬ ((natDigits n).head? = some '0' ∧ natDigits n ≠ ['0']) := by
    rintro ⟨hhead, hne⟩
    by_cases hn : n = 0
    · exact hne (by rw [hn]; rfl)
    · exact head?_natDigits hn hhead
  simp only [unsigned, takeDigits_natDigits h, if_neg hzero, takeFraction_of_stops h,
    takeExponent_of_stops h, List.append_nil]

theorem number_intDigits (h : Stops rest) {i : Int} (hlow : -2 ^ 63 ≤ i) (hhigh : i < 2 ^ 64) :
    number (intDigits i ++ rest) = some (.int i, rest) := by
  cases i with
  | ofNat n =>
    have hn : n < 2 ^ 64 := by
      rw [Int.ofNat_eq_natCast] at hhigh
      exact_mod_cast hhigh
    have hunsigned : number (natDigits n ++ rest) = unsigned false (natDigits n ++ rest) := by
      obtain ⟨c, digits, hd, hc⟩ := exists_natDigits_eq_cons n
      rw [hd, List.cons_append]
      unfold number
      split
      · next heq =>
        cases heq
        cases hc
      · rfl
    rw [intDigits, hunsigned, unsigned_natDigits h]
    simp [classify, natOf_natDigits, hn]
  | negSucc n =>
    have hn : n + 1 ≤ 2 ^ 63 := by omega
    rw [intDigits, List.cons_append, number, unsigned_natDigits h]
    simp [classify, natOf_natDigits, hn, Int.negSucc_eq]

end Numbers

section Texts

variable {c : Char} {text rest : List Char} {ps : List Piece}

/-- Escapes by number stand for control characters alone. -/
inductive Piece.Says : Piece → Char → Prop
  | char (c : Char) : Says (.char c) c
  | code (c : Char) : c.toNat < 32 → Says (.code c.toNat) c

theorem join_code {unit : Nat} (h : unit < 0xd800) (ps : List Piece) :
    join (.code unit :: ps) = (join ps).map (Char.ofNat unit :: ·) := by
  have hhigh : isHighSurrogate unit = false := by simp [isHighSurrogate]; omega
  have hlow : isLowSurrogate unit = false := by simp [isLowSurrogate]; omega
  cases ps with
  | nil => simp [join, hhigh, hlow]
  | cons p ps => cases p <;> simp [join, hhigh, hlow]

theorem join_of_says (h : List.Forall₂ Piece.Says ps text) : join ps = some text := by
  induction h with
  | nil => rfl
  | cons hp _ ih =>
    cases hp with
    | char c => rw [join, ih, Option.map_some]
    | code c hc => rw [join_code (by omega), ih, Option.map_some, Char.ofNat_toNat]

theorem hexUnit?_control {n : Nat} (h : n < 32) :
    hexUnit? '0' '0' (Hex.digit (n / 16)) (Hex.digit (n % 16)) = some n := by
  interval_cases n <;> rfl

theorem pieces_short {e : Char} (he : e ≠ 'u') (hc : shortEscape? e = some c)
    (text : List Char) : pieces ('\\' :: e :: text) =
      (pieces text).map fun (ps, rest) => (.char c :: ps, rest) := by
  rw [pieces, hc]
  · cases pieces text <;> rfl
  · rintro _ _ _ _ _ rfl
    exact absurd rfl he

theorem pieces_control {n : Nat} (h : n < 32) (text : List Char) :
    pieces ('\\' :: 'u' :: '0' :: '0' :: Hex.digit (n / 16) :: Hex.digit (n % 16) :: text) =
      (pieces text).map fun (ps, rest) => (.code n :: ps, rest) := by
  rw [pieces, hexUnit?_control h]
  cases pieces text <;> rfl

theorem pieces_plain (hc : 32 ≤ c.toNat) (hquote : c ≠ '"') (hslash : c ≠ '\\')
    (text : List Char) :
    pieces (c :: text) = (pieces text).map fun (ps, rest) => (.char c :: ps, rest) := by
  have hplain : ¬ (c.toNat < 32 ∨ c = '\\') := by
    rintro (hlt | he)
    · omega
    · exact hslash he
  rw [pieces, if_neg hplain]
  · exact hquote
  · exact fun _ _ _ _ _ he => absurd he hslash
  · exact fun _ _ he => absurd he hslash

theorem escape_cases (c : Char) :
    (∃ e, e ≠ 'u' ∧ shortEscape? e = some c ∧ escape c = ['\\', e]) ∨
    (c.toNat < 32 ∧ escape c =
      ['\\', 'u', '0', '0', Hex.digit (c.toNat / 16), Hex.digit (c.toNat % 16)]) ∨
    (32 ≤ c.toNat ∧ c ≠ '"' ∧ c ≠ '\\' ∧ escape c = [c]) := by
  by_cases hshort : c ∈ ['"', '\\', '\n', '\r', '\t', '\x08', '\x0c']
  · simp only [List.mem_cons, List.not_mem_nil, or_false] at hshort
    rcases hshort with rfl | rfl | rfl | rfl | rfl | rfl | rfl <;>
      exact .inl ⟨_, by decide, rfl, rfl⟩
  · simp only [List.mem_cons, List.not_mem_nil, or_false, not_or] at hshort
    obtain ⟨hquote, hslash, hn, hr, ht, hb, hf⟩ := hshort
    have hnum (n : Nat) (hne : c ≠ Char.ofNat n) : c.toNat ≠ n := by
      rintro rfl
      exact hne (Char.ofNat_toNat c).symm
    have h8 := hnum 8 hb
    have h12 := hnum 12 hf
    by_cases hlow : c.toNat < 32
    · exact .inr (.inl ⟨hlow, by simp [escape, hquote, hslash, hn, hr, ht, h8, h12, hlow]⟩)
    · refine .inr (.inr ⟨Nat.le_of_not_lt hlow, hquote, hslash, ?_⟩)
      simp [escape, hquote, hslash, hn, hr, ht, h8, h12, hlow]

theorem pieces_escape (c : Char) : ∃ p : Piece, p.Says c ∧ ∀ text,
    pieces (escape c ++ text) = (pieces text).map fun (ps, rest) => (p :: ps, rest) := by
  rcases escape_cases c with ⟨e, he, hc, hesc⟩ | ⟨hc, hesc⟩ | ⟨hc, hquote, hslash, hesc⟩
  · exact ⟨_, .char c, fun text => hesc ▸ pieces_short he hc text⟩
  · exact ⟨_, .code c hc, fun text => hesc ▸ pieces_control hc text⟩
  · exact ⟨_, .char c, fun text => hesc ▸ pieces_plain hc hquote hslash text⟩

theorem pieces_flatMap (text rest : List Char) : ∃ ps,
    pieces (text.flatMap escape ++ '"' :: rest) = some (ps, rest) ∧
      List.Forall₂ Piece.Says ps text := by
  induction text with
  | nil => exact ⟨[], rfl, .nil⟩
  | cons c text ih =>
    obtain ⟨ps, hps, hsays⟩ := ih
    obtain ⟨p, hp, hpieces⟩ := pieces_escape c
    refine ⟨p :: ps, ?_, .cons hp hsays⟩
    rw [List.flatMap_cons, List.append_assoc, hpieces, hps]
    rfl

theorem stringBody_flatMap (text rest : List Char) :
    stringBody (text.flatMap escape ++ '"' :: rest) = some (some text, rest) := by
  obtain ⟨ps, hps, hsays⟩ := pieces_flatMap text rest
  simp only [stringBody, hps, Option.map_some, join_of_says hsays]

theorem quote_append (text rest : List Char) :
    quote (some text) ++ rest = '"' :: (text.flatMap escape ++ '"' :: rest) := by
  simp [quote]

theorem fieldName_quote (text rest : List Char) :
    fieldName (quote (some text) ++ ':' :: rest) = some (some text, rest) := by
  rw [quote_append]
  simp [fieldName, skipBlanks, isBlank, stringBody_flatMap]

end Texts

namespace Value

mutual

/-- Values whose text says all of them: no number that is kept as text, no whole number outside
of 64 bits, and no broken string. -/
def Exact : Value → Prop
  | .null => True
  | .bool _ => True
  | .int i => -2 ^ 63 ≤ i ∧ i < 2 ^ 64
  | .real _ => False
  | .text s => s.isSome
  | .list vs => ExactItems vs
  | .object fs => ExactFields fs

def ExactItems : List Value → Prop
  | [] => True
  | v :: vs => v.Exact ∧ ExactItems vs

def ExactFields : List (Option (List Char) × Value) → Prop
  | [] => True
  | (name, v) :: fs => name.isSome ∧ v.Exact ∧ ExactFields fs

end

end Value

section Values

variable {c : Char} {text rest : List Char} {fuel : Nat}

theorem skipBlanks_cons (hc : isBlank c = false) (text : List Char) :
    skipBlanks (c :: text) = c :: text := by
  simp [skipBlanks, hc]

theorem value_text (fuel : Nat) (text rest : List Char) :
    value (fuel + 1) (quote (some text) ++ rest) = some (.text (some text), rest) := by
  rw [quote_append, value, skipBlanks_cons rfl]
  simp only [stringBody_flatMap, Option.map_some]

theorem exists_intDigits_eq_cons (i : Int) : ∃ c text, intDigits i = c :: text ∧
    isBlank c = false ∧ ∀ d, d ≠ '-' → isDigit d = false → c ≠ d := by
  have hhead : ∃ c text, intDigits i = c :: text ∧ (c = '-' ∨ isDigit c) := by
    cases i with
    | ofNat n =>
      obtain ⟨c, digits, hd, hc⟩ := exists_natDigits_eq_cons n
      exact ⟨c, digits, hd, .inr hc⟩
    | negSucc n => exact ⟨_, _, rfl, .inl rfl⟩
  obtain ⟨c, text, htext, hc⟩ := hhead
  have hne : ∀ d, d ≠ '-' → isDigit d = false → c ≠ d := by
    rintro d hd hno rfl
    rcases hc with rfl | hc
    · exact hd rfl
    · rw [hno] at hc
      cases hc
  refine ⟨c, text, htext, ?_, hne⟩
  simp [isBlank, hne ' ' (by decide) rfl, hne '\n' (by decide) rfl, hne '\r' (by decide) rfl,
    hne '\t' (by decide) rfl]

theorem value_int (h : Stops rest) {i : Int} (hlow : -2 ^ 63 ≤ i) (hhigh : i < 2 ^ 64)
    (fuel : Nat) : value (fuel + 1) (intDigits i ++ rest) = some (.int i, rest) := by
  obtain ⟨c, text, htext, hblank, hne⟩ := exists_intDigits_eq_cons i
  have hnumber := number_intDigits h hlow hhigh
  rw [htext, List.cons_append] at hnumber ⊢
  rw [value.eq_def]
  simp only [skipBlanks_cons hblank]
  split <;> first
    | exact hnumber
    | next heq => exact absurd (List.cons.inj heq).1 (hne _ (by decide) rfl)

theorem value_list (hc : isBlank c = false) (hend : c ≠ ']') (fuel : Nat) (text : List Char) :
    value (fuel + 1) ('[' :: c :: text) =
      (items fuel (c :: text)).map fun (vs, rest) => (.list vs, rest) := by
  rw [value, skipBlanks_cons rfl]
  simp only [skipBlanks_cons hc]
  split
  · next heq => exact absurd (List.cons.inj heq).1 hend
  · rfl

theorem value_object (fuel : Nat) (text : List Char) :
    value (fuel + 1) ('\x7b' :: '"' :: text) =
      (fields fuel ('"' :: text)).map fun (fs, rest) => (.object fs, rest) := by
  rw [value, skipBlanks_cons rfl]
  rfl

theorem exists_chars_eq_cons {v : Value} (h : v.Exact) :
    ∃ c text, v.chars = c :: text ∧ isBlank c = false ∧ c ≠ ']' := by
  cases v with
  | null => exact ⟨_, _, rfl, rfl, by decide⟩
  | bool b => cases b <;> exact ⟨_, _, rfl, rfl, by decide⟩
  | int i =>
    obtain ⟨c, text, htext, hblank, hne⟩ := exists_intDigits_eq_cons i
    exact ⟨c, text, htext, hblank, hne ']' (by decide) rfl⟩
  | real digits => cases h
  | text s => exact ⟨_, _, rfl, rfl, by decide⟩
  | list vs => cases vs <;> exact ⟨_, _, rfl, rfl, by decide⟩
  | object fs => rcases fs with _ | ⟨⟨name, v⟩, fs⟩ <;> exact ⟨_, _, rfl, rfl, by decide⟩

theorem tail_itemsChars (v : Value) (vs : List Value) :
    (Value.itemsChars (v :: vs)).tail = v.chars ++ Value.itemsChars vs := by
  simp [Value.itemsChars]

theorem tail_fieldsChars (name : Option (List Char)) (v : Value)
    (fs : List (Option (List Char) × Value)) : (Value.fieldsChars ((name, v) :: fs)).tail =
      quote name ++ ':' :: (v.chars ++ Value.fieldsChars fs) := by
  simp [Value.fieldsChars]

theorem itemsChars_cons (v : Value) (vs : List Value) :
    Value.itemsChars (v :: vs) = ',' :: (Value.itemsChars (v :: vs)).tail := by
  simp [Value.itemsChars]

theorem fieldsChars_cons (f : Option (List Char) × Value)
    (fs : List (Option (List Char) × Value)) :
    Value.fieldsChars (f :: fs) = ',' :: (Value.fieldsChars (f :: fs)).tail := by
  simp [Value.fieldsChars]

theorem chars_list (v : Value) (vs : List Value) :
    (Value.list (v :: vs)).chars = '[' :: (Value.itemsChars (v :: vs)).tail := by
  simp [Value.chars, Value.itemsChars]

theorem chars_object (f : Option (List Char) × Value) (fs : List (Option (List Char) × Value)) :
    (Value.object (f :: fs)).chars = '\x7b' :: (Value.fieldsChars (f :: fs)).tail := by
  simp [Value.chars, Value.fieldsChars]

mutual

theorem value_chars : ∀ (v : Value) (fuel : Nat) (rest : List Char), v.Exact → Stops rest →
    v.chars.length ≤ fuel → value fuel (v.chars ++ rest) = some (v, rest)
  | v, 0, rest, hexact, _, hfuel => by
    obtain ⟨c, text, htext, -⟩ := exists_chars_eq_cons hexact
    rw [htext] at hfuel
    cases hfuel
  | .null, fuel + 1, rest, _, _, _ => by
    rw [Value.chars, value.eq_def]
    rfl
  | .bool true, fuel + 1, rest, _, _, _ => by
    rw [Value.chars, value.eq_def]
    rfl
  | .bool false, fuel + 1, rest, _, _, _ => by
    rw [Value.chars, value.eq_def]
    rfl
  | .int i, fuel + 1, rest, hexact, hrest, _ => value_int hrest hexact.1 hexact.2 fuel
  | .real digits, fuel + 1, rest, hexact, _, _ => by cases hexact
  | .text none, fuel + 1, rest, hexact, _, _ => by cases hexact
  | .text (some text), fuel + 1, rest, _, _, _ => value_text fuel text rest
  | .list [], fuel + 1, rest, _, _, _ => by
    rw [Value.chars, value.eq_def]
    rfl
  | .list (v :: vs), fuel + 1, rest, hexact, _, hfuel => by
    obtain ⟨c, text, htext, hblank, hend⟩ := exists_chars_eq_cons hexact.1
    have hitems := items_itemsChars (v :: vs) fuel rest hexact (by simp) hfuel
    rw [tail_itemsChars, htext, List.cons_append, List.cons_append] at hitems
    rw [chars_list, tail_itemsChars, htext, List.cons_append, List.cons_append,
      List.cons_append, value_list hblank hend, hitems]
    rfl
  | .object [], fuel + 1, rest, _, _, _ => by
    rw [Value.chars, value.eq_def]
    rfl
  | .object ((none, v) :: fs), fuel + 1, rest, hexact, _, _ => by cases hexact.1
  | .object ((some name, v) :: fs), fuel + 1, rest, hexact, _, hfuel => by
    have hfields := fields_fieldsChars ((some name, v) :: fs) fuel rest hexact (by simp) hfuel
    rw [tail_fieldsChars, quote_append, List.cons_append] at hfields
    rw [chars_object, tail_fieldsChars, quote_append, List.cons_append, List.cons_append,
      value_object, hfields]
    rfl

theorem items_itemsChars : ∀ (vs : List Value) (fuel : Nat) (rest : List Char),
    Value.ExactItems vs → vs ≠ [] → (Value.itemsChars vs).length ≤ fuel + 1 →
      items fuel ((Value.itemsChars vs).tail ++ rest) = some (vs, rest)
  | [], _, _, _, hne, _ => absurd rfl hne
  | v :: vs, 0, rest, hexact, _, hfuel => by
    obtain ⟨c, text, htext, -⟩ := exists_chars_eq_cons hexact.1
    rw [Value.itemsChars, htext] at hfuel
    simp at hfuel
  | v :: vs, fuel + 1, rest, hexact, _, hfuel => by
    rw [Value.itemsChars, List.cons_append, List.length_cons, List.length_append] at hfuel
    have hpos := length_itemsChars_pos vs
    have hv := value_chars v fuel (Value.itemsChars vs ++ rest) hexact.1
      (stops_itemsChars vs rest) (by omega)
    rw [tail_itemsChars, List.append_assoc, items]
    simp only [hv]
    cases vs with
    | nil => rfl
    | cons w ws =>
      have hrest := items_itemsChars (w :: ws) fuel rest hexact.2 (by simp) (by omega)
      rw [itemsChars_cons, List.cons_append, skipBlanks_cons rfl]
      simp only [hrest, Option.map_some]

theorem fields_fieldsChars : ∀ (fs : List (Option (List Char) × Value)) (fuel : Nat)
    (rest : List Char), Value.ExactFields fs → fs ≠ [] →
      (Value.fieldsChars fs).length ≤ fuel + 1 →
        fields fuel ((Value.fieldsChars fs).tail ++ rest) = some (fs, rest)
  | [], _, _, _, hne, _ => absurd rfl hne
  | (none, v) :: fs, _, rest, hexact, _, _ => by cases hexact.1
  | (some name, v) :: fs, 0, rest, hexact, _, hfuel => by
    simp [Value.fieldsChars, quote] at hfuel
  | (some name, v) :: fs, fuel + 1, rest, hexact, _, hfuel => by
    simp only [Value.fieldsChars, quote, List.length_cons, List.length_append] at hfuel
    have hpos := length_fieldsChars_pos fs
    have hv := value_chars v fuel (Value.fieldsChars fs ++ rest) hexact.2.1
      (stops_fieldsChars fs rest) (by omega)
    rw [tail_fieldsChars, List.append_assoc, List.cons_append, List.append_assoc, fields,
      fieldName_quote]
    simp only [hv]
    cases fs with
    | nil => rfl
    | cons g gs =>
      have hrest := fields_fieldsChars (g :: gs) fuel rest hexact.2.2 (by simp) (by omega)
      rw [fieldsChars_cons, List.cons_append, skipBlanks_cons rfl]
      simp only [hrest, Option.map_some]

end

/-- Compact text is read as the value that it was written for. -/
theorem parse_chars {v : Value} (h : v.Exact) : parse v.chars = some v := by
  have hread := value_chars v (2 * v.chars.length + 2) [] h stops_nil (by omega)
  rw [List.append_nil] at hread
  rw [parse, hread]
  rfl

end Values

end BlockTree.Json
