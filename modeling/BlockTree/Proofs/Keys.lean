import BlockTree.Shelf
import Mathlib.Data.List.Sort

/-! The keys of the trees, and the order in which a tree lists what it holds. -/

namespace BlockTree

namespace Tree

variable {β : Type} {t : Std.ExtTreeMap Bytes β} {k a : Bytes} {v : β}

theorem getElem?_insert : (t.insert k v)[a]? = if k = a then some v else t[a]? := by
  rw [Std.ExtTreeMap.getElem?_insert]
  simp only [Std.LawfulEqOrd.compare_eq_iff_eq]

theorem getElem?_erase : (t.erase k)[a]? = if k = a then none else t[a]? := by
  rw [Std.ExtTreeMap.getElem?_erase]
  simp only [Std.LawfulEqOrd.compare_eq_iff_eq]

theorem mem_insert : a ∈ t.insert k v ↔ k = a ∨ a ∈ t := by
  rw [Std.ExtTreeMap.mem_insert, Std.LawfulEqOrd.compare_eq_iff_eq]

theorem mem_erase : a ∈ t.erase k ↔ k ≠ a ∧ a ∈ t := by
  rw [Std.ExtTreeMap.mem_erase, ne_eq, Std.LawfulEqOrd.compare_eq_iff_eq]

theorem size_insert : (t.insert k v).size = if t[k]?.isSome then t.size else t.size + 1 := by
  rw [Std.ExtTreeMap.size_insert, Std.ExtTreeMap.contains_eq_isSome_getElem?]

theorem size_erase : (t.erase k).size = if t[k]?.isSome then t.size - 1 else t.size := by
  rw [Std.ExtTreeMap.size_erase, Std.ExtTreeMap.contains_eq_isSome_getElem?]

theorem values_eq (t : Std.ExtTreeMap Bytes β) : t.values = t.toList.map Prod.snd := by
  have hfold : t.values = t.foldr (fun _ v vs => v :: vs) [] := by
    obtain ⟨⟨t⟩⟩ := t
    induction t using Quotient.inductionOn with
    | h t => rfl
  rw [hfold, Std.ExtTreeMap.foldr_eq_foldr_toList]
  induction t.toList with
  | nil => rfl
  | cons p ps ih => simp [ih]

theorem toList_eq {t : Tree} {entries : List (Bytes × Bytes)}
    (hsorted : entries.Pairwise fun p q => compare p.1 q.1 = .lt)
    (hmem : ∀ k v, t[k]? = some v ↔ (k, v) ∈ entries) : t.toList = entries := by
  have hirrefl : Std.Irrefl fun p q : Bytes × Bytes => compare p.1 q.1 = .lt :=
    ⟨fun p h => by simp [Std.ReflCmp.compare_self] at h⟩
  have hantisymm : Std.Antisymm fun p q : Bytes × Bytes => compare p.1 q.1 = .lt :=
    ⟨fun p q hpq hqp => by
      have hswap : compare p.1 q.1 = (compare q.1 p.1).swap := Std.OrientedCmp.eq_swap
      rw [hpq, hqp] at hswap
      cases hswap⟩
  refine List.Pairwise.eq_of_mem_iff Std.ExtTreeMap.ordered_keys_toList hsorted ?_
  intro p
  rw [← hmem]
  exact Std.ExtTreeMap.mem_toList_iff_getElem?_eq_some

end Tree

theorem compare_append_singleton {as bs : Bytes} {x y : UInt8} (h : as.length = bs.length) :
    compare (as ++ [x]) (bs ++ [y]) = (compare as bs).then (compare x y) := by
  induction as generalizing bs with
  | nil =>
    rw [List.eq_nil_of_length_eq_zero h.symm]
    simp [List.compare_cons_cons]
  | cons a as ih =>
    cases bs with
    | nil => simp at h
    | cons b bs =>
      rw [List.cons_append, List.cons_append, List.compare_cons_cons, List.compare_cons_cons,
        ih (by simpa using h), Ordering.then_assoc]

theorem bigEndian_succ (width value : Nat) :
    bigEndian (width + 1) value = bigEndian width (value / 256) ++ [UInt8.ofNat value] := by
  simp [bigEndian, littleEndian]

theorem ofBigEndian_lt (bs : Bytes) : ofBigEndian bs < 256 ^ bs.length := by
  have hlow : ∀ cs : Bytes, ofLittleEndian cs < 256 ^ cs.length := by
    intro cs
    induction cs with
    | nil => simp [ofLittleEndian]
    | cons c cs ih =>
      have hc := c.toNat_lt
      rw [ofLittleEndian, List.length_cons, Nat.pow_succ]
      omega
  have hlt := hlow bs.reverse
  rwa [List.length_reverse] at hlt

theorem compare_bigEndian {width m n : Nat} (hmn : m < n) (hn : n < 256 ^ width) :
    compare (bigEndian width m) (bigEndian width n) = .lt := by
  induction width generalizing m n with
  | zero => omega
  | succ width ih =>
    have hlen : (bigEndian width (m / 256)).length = (bigEndian width (n / 256)).length := by simp
    rw [bigEndian_succ, bigEndian_succ, compare_append_singleton hlen]
    have hn' : n / 256 < 256 ^ width := by
      rw [Nat.div_lt_iff_lt_mul (by decide)]
      rwa [Nat.pow_succ] at hn
    rcases Nat.lt_or_ge (m / 256) (n / 256) with hlt | hge
    · rw [ih hlt hn']
      rfl
    · have hsame : m / 256 = n / 256 := by omega
      have heq : compare (bigEndian width (n / 256)) (bigEndian width (n / 256)) = .eq :=
        Std.ReflCmp.compare_self
      rw [hsame, heq]
      have hlow : UInt8.ofNat m < UInt8.ofNat n := by
        rw [UInt8.lt_iff_toNat_lt, UInt8.toNat_ofNat', UInt8.toNat_ofNat']
        omega
      exact Std.compare_eq_lt.mpr hlow

namespace Key

theorem seq_ne {m n : Nat} (hm : m < 2 ^ 64) (hn : n < 2 ^ 64) (h : m ≠ n) : seq m ≠ seq n := by
  intro he
  have := congrArg ofBigEndian he
  rw [seq, seq, ofBigEndian_bigEndian, ofBigEndian_bigEndian] at this
  omega

theorem genesis_ne_best : genesis ≠ best := by
  decide +kernel

theorem genesis_ne_counter : genesis ≠ counter := by
  decide +kernel

theorem best_ne_counter : best ≠ counter := by
  decide +kernel

theorem link_inj {h k : Hash} : link h = link k ↔ h = k := by
  refine ⟨fun he => ?_, fun he => he ▸ rfl⟩
  cases h
  cases k
  simpa [link] using he

theorem child_inj {p q c d : Hash} : child p c = child q d ↔ p = q ∧ c = d := by
  refine ⟨fun he => ?_, fun he => by rw [he.1, he.2]⟩
  obtain ⟨hp, hc⟩ := List.append_inj he (p.length_bytes.trans q.length_bytes.symm)
  exact ⟨link_inj.mp hp, link_inj.mp hc⟩

theorem childOf_child (p c : Hash) : childOf (child p c) = c := by
  have hlen : (child p c).length - 32 = p.bytes.length := by
    simp [child, p.length_bytes, c.length_bytes]
  rw [childOf, hlen, child, List.drop_left, Hash.ofBytes_bytes]

theorem isPrefixOf_child {p q c : Hash} : (link p).isPrefixOf (child q c) ↔ p = q := by
  rw [List.isPrefixOf_iff_prefix]
  constructor
  · intro hp
    obtain ⟨rest, hrest⟩ := hp
    exact link_inj.mp (List.append_inj hrest (p.length_bytes.trans q.length_bytes.symm)).1
  · intro he
    rw [he]
    exact List.prefix_append _ _

end Key

end BlockTree
