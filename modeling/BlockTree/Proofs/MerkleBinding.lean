import BlockTree.Merkle
import Mathlib.Logic.Function.Iterate

/-! What a Merkle root commits to. Levels that fold to one root are the same, or two
strings that were hashed on the way have one digest. Nodes tell neither their height nor
how many leaves stand below them, but the first node above a leaf level was hashed of a
pair, and a leaf was hashed of a single digest. -/

namespace BlockTree

/-- Two different strings, one of each list, have one digest. -/
def Collide (ss ts : List Bytes) : Prop :=
  ∃ s ∈ ss, ∃ t ∈ ts, s ≠ t ∧ sha256 s = sha256 t

namespace Collide

variable {s t : Bytes} {ss ss' ts ts' : List Bytes}

theorem symm (h : Collide ss ts) : Collide ts ss := by
  obtain ⟨s, hs, t, ht, hne, he⟩ := h
  exact ⟨t, ht, s, hs, hne.symm, he.symm⟩

theorem mono (h : Collide ss ts) (hs : ss ⊆ ss') (ht : ts ⊆ ts') : Collide ss' ts' := by
  obtain ⟨s, hms, t, hmt, h⟩ := h
  exact ⟨s, hs hms, t, ht hmt, h⟩

theorem of_length_ne (hs : s ∈ ss) (ht : t ∈ ts) (hlen : s.length ≠ t.length)
    (he : sha256 s = sha256 t) : Collide ss ts :=
  ⟨s, hs, t, ht, fun h => hlen (congrArg List.length h), he⟩

theorem eq_or (hs : s ∈ ss) (ht : t ∈ ts) (he : sha256 s = sha256 t) : s = t ∨ Collide ss ts := by
  by_cases h : s = t
  · exact .inl h
  · exact .inr ⟨s, hs, t, ht, h, he⟩

/-- Items whose digests agree one by one are the same, unless what was hashed collides. -/
theorem eq_or_of_map {α β : Type} {digest : α → β} (hashed : α → List Bytes) {xs ys : List α}
    (heach : ∀ x ∈ xs, ∀ y ∈ ys, digest x = digest y → x = y ∨ Collide (hashed x) (hashed y))
    (he : xs.map digest = ys.map digest) :
    xs = ys ∨ Collide (xs.flatMap hashed) (ys.flatMap hashed) := by
  induction xs generalizing ys with
  | nil => exact .inl (List.map_eq_nil_iff.mp he.symm).symm
  | cons x xs ih =>
    cases ys with
    | nil => simp at he
    | cons y ys =>
      simp only [List.map_cons, List.cons.injEq] at he
      have hrest := ih (fun a ha b hb => heach a (List.mem_cons_of_mem _ ha) b
        (List.mem_cons_of_mem _ hb)) he.2
      simp only [List.flatMap_cons]
      rcases heach x List.mem_cons_self y List.mem_cons_self he.1 with hxy | hcollide
      · rcases hrest with hxs | hcollide
        · exact .inl (by rw [hxy, hxs])
        · exact .inr (hcollide.mono (List.subset_append_right _ _) (List.subset_append_right _ _))
      · exact .inr (hcollide.mono (List.subset_append_left _ _) (List.subset_append_left _ _))

end Collide

namespace Merkle

/-- The strings of which the nodes of the next level are the digests. -/
def joined : List Bytes → List Bytes
  | left :: right :: rest => (left ++ right) :: joined rest
  | [single] => [single]
  | [] => []

/-- The strings that are hashed while a level is folded until one node is left. -/
def climbed : Nat → List Bytes → List Bytes
  | 0, _ => []
  | n + 1, level =>
    joined level ++
      match fold level with
      | [_] => []
      | next => climbed n next

variable {level level' : List Bytes} {m n : Nat}

theorem fold_eq (level : List Bytes) : fold level = (joined level).map sha256 := by
  fun_induction fold level with
  | case1 left right rest ih => simp [joined, ih]
  | case2 single => rfl
  | case3 => rfl

/-- Every node is as long as a digest. -/
def Even (level : List Bytes) : Prop :=
  ∀ node ∈ level, node.length = 32

theorem even_fold (level : List Bytes) : Even (fold level) := by
  intro node hnode
  rw [fold_eq] at hnode
  obtain ⟨s, -, hs⟩ := List.mem_map.mp hnode
  rw [← hs, length_sha256]

theorem Even.iterate (h : Even level) (n : Nat) : Even (fold^[n] level) := by
  cases n with
  | zero => exact h
  | succ n =>
    rw [Function.iterate_succ_apply']
    exact even_fold _

theorem Even.joined_inj (h : Even level) (h' : Even level') (he : joined level = joined level') :
    level = level' := by
  fun_induction joined level generalizing level' with
  | case1 left right rest ih =>
    have hleft := h left (by simp)
    have hright := h right (by simp)
    match level', h' with
    | [], _ => simp [joined] at he
    | [single], h' =>
      have hsingle := h' single (by simp)
      simp only [joined, List.cons.injEq] at he
      have hlen := congrArg List.length he.1
      simp only [List.length_append] at hlen
      omega
    | left' :: right' :: rest', h' =>
      simp only [joined, List.cons.injEq] at he
      have hleft' := h' left' (by simp)
      obtain ⟨hl, hr⟩ := List.append_inj he.1 (hleft.trans hleft'.symm)
      have hrest := ih (fun node hn => h node (by simp [hn]))
        (fun node hn => h' node (by simp [hn])) he.2
      rw [hl, hr, hrest]
  | case2 single =>
    have hsingle := h single (by simp)
    match level', h' with
    | [], _ => simp [joined] at he
    | [single'], _ => simpa [joined] using he
    | left' :: right' :: rest', h' =>
      have hleft' := h' left' (by simp)
      have hright' := h' right' (by simp)
      simp only [joined, List.cons.injEq] at he
      have hlen := congrArg List.length he.1
      simp only [List.length_append] at hlen
      omega
  | case3 =>
    match level' with
    | [] => rfl
    | [single'] => simp [joined] at he
    | left' :: right' :: rest' => simp [joined] at he

theorem Even.fold_inj (h : Even level) (h' : Even level') (he : fold level = fold level') :
    level = level' ∨ Collide (joined level) (joined level') := by
  rw [fold_eq, fold_eq] at he
  have hsame := Collide.eq_or_of_map (fun s => [s]) (fun s _ t _ hst =>
    Collide.eq_or (List.mem_singleton_self s) (List.mem_singleton_self t) hst) he
  rw [List.flatMap_singleton', List.flatMap_singleton'] at hsame
  exact hsame.imp_left (h.joined_inj h')

/-- Going down from one level to the next, the nodes stay the same. -/
theorem Even.iterate_fold_inj (h : Even level) (h' : Even level')
    (he : fold^[n] level = fold^[n] level') :
    level = level' ∨
      ∃ i < n, Collide (joined (fold^[i] level)) (joined (fold^[i] level')) := by
  induction n with
  | zero => exact .inl he
  | succ n ih =>
    rw [Function.iterate_succ_apply', Function.iterate_succ_apply'] at he
    rcases (h.iterate n).fold_inj (h'.iterate n) he with hsame | hcollide
    · refine (ih hsame).imp_right ?_
      intro hlower
      obtain ⟨i, hi, hcollide⟩ := hlower
      exact ⟨i, Nat.lt_succ_of_lt hi, hcollide⟩
    · exact .inr ⟨n, Nat.lt_succ_self n, hcollide⟩

/-- A level of which `m + 1` folds leave one node, none of them too many, with the
strings that these folds hash among `ss`. -/
structure Rises (level : List Bytes) (m : Nat) (root : Bytes) (ss : List Bytes) : Prop where
  top : fold^[m + 1] level = [root]
  wide : ∀ i < m, 2 < (fold^[i] level).length
  hashed : ∀ i ≤ m, joined (fold^[i] level) ⊆ ss

theorem Rises.step {root : Bytes} {ss : List Bytes} (h : Rises (fold level) m root ss)
    (hwide : 2 < level.length) : Rises level (m + 1) root (joined level ++ ss) where
  top := h.top
  wide i hi := by
    cases i with
    | zero => exact hwide
    | succ i => exact h.wide i (Nat.lt_of_succ_lt_succ hi)
  hashed i hi := by
    cases i with
    | zero => exact List.subset_append_left _ _
    | succ i =>
      have hbelow := h.hashed i (Nat.le_of_succ_le_succ hi)
      exact List.Subset.trans hbelow (List.subset_append_right _ _)

theorem exists_rises (hne : level ≠ []) (hle : level.length ≤ n) :
    ∃ m, Rises level m (climb n level) (climbed n level) := by
  induction n generalizing level with
  | zero => exact absurd (List.length_eq_zero_iff.mp (Nat.le_zero.mp hle)) hne
  | succ n ih =>
    have hlen := length_fold level
    have hpos := List.length_pos_iff.mpr hne
    cases hfold : fold level with
    | nil =>
      rw [hfold, List.length_nil] at hlen
      omega
    | cons root others =>
      cases others with
      | nil =>
        refine ⟨0, by simp [climb, hfold], by simp, ?_⟩
        intro i hi
        rw [Nat.le_zero.mp hi]
        exact List.subset_append_left _ _
      | cons other others =>
        rw [hfold, List.length_cons, List.length_cons] at hlen
        have hne' : fold level ≠ [] := by simp [hfold]
        obtain ⟨m, hm⟩ := ih hne' (by rw [hfold, List.length_cons, List.length_cons]; omega)
        have hclimb : climb (n + 1) level = climb n (fold level) := by simp [climb, hfold]
        have hclimbed : climbed (n + 1) level = joined level ++ climbed n (fold level) := by
          simp [climbed, hfold]
        rw [hclimb, hclimbed]
        exact ⟨m + 1, hm.step (by omega)⟩

section Roots

variable {m' : Nat} {root : Bytes} {ss ss' : List Bytes} (h : Rises level m root ss)
  (h' : Rises level' m' root ss') (heven : Even level) (heven' : Even level')

include h h' heven heven'

/-- Roots of two levels of one height agree only if the levels do. -/
theorem Rises.eq_or_collide (hm : m = m') : level = level' ∨ Collide ss ss' := by
  subst hm
  refine (heven.iterate_fold_inj heven' (h.top.trans h'.top.symm)).imp_right ?_
  intro hcollide
  obtain ⟨i, hi, hcollide⟩ := hcollide
  exact hcollide.mono (h.hashed i (Nat.le_of_lt_succ hi)) (h'.hashed i (Nat.le_of_lt_succ hi))

/-- Where the other tree is higher, its nodes at the height of this level stand on pairs. -/
theorem Rises.head_of_lt (hm : m < m') :
    (∃ s ∈ ss', s.length = 64 ∧ ∃ rest, level = sha256 s :: rest) ∨ Collide ss ss' := by
  obtain ⟨k, hk⟩ : ∃ k, m' = m + 1 + k := ⟨m' - (m + 1), by omega⟩
  have hraise (i : Nat) : fold^[i] (fold^[k + 1] level') = fold^[i + (k + 1)] level' :=
    (Function.iterate_add_apply fold i (k + 1) level').symm
  have htop : fold^[m + 1] level = fold^[m + 1] (fold^[k + 1] level') := by
    rw [hraise, h.top, ← h'.top, hk, Nat.add_assoc (m + 1) k 1]
  rcases heven.iterate_fold_inj (heven'.iterate (k + 1)) htop with hsame | ⟨i, hi, hcollide⟩
  · obtain ⟨left, right, rest, hpair⟩ : ∃ left right rest,
        fold^[k] level' = left :: right :: rest := by
      have hwide := h'.wide k (by omega)
      match hlevel : fold^[k] level', hwide with
      | left :: right :: rest, _ => exact ⟨left, right, rest, rfl⟩
    have hnodes := heven'.iterate k
    rw [hpair] at hnodes
    refine .inl ⟨left ++ right, h'.hashed k (by omega) (by simp [hpair, joined]), ?_, fold rest, ?_⟩
    · rw [List.length_append, hnodes left (by simp), hnodes right (by simp)]
    · rw [hsame, Function.iterate_succ_apply', hpair]
      rfl
  · rw [hraise] at hcollide
    exact .inr (hcollide.mono (h.hashed i (by omega)) (h'.hashed _ (by omega)))

end Roots

end Merkle

end BlockTree
