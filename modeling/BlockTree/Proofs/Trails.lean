import BlockTree.Ancestry
import BlockTree.Proofs.Caching

/-! Searches along parents, whatever the parents are. A search that ends meets no stored
link twice, so it makes no difference how much more than the stored links it is allowed. -/

namespace BlockTree

namespace Arena

def parent? (a : Arena) (l : Link) : Option Link :=
  if l.isGenesis || l.parentHash.isZero then none else a.find? l.parentHash

/-- The links that a search for a wanted link meets, if it ends. -/
inductive Trail (a : Arena) (wanted : Link → Bool) : Link → List Link → Prop
  | found {l : Link} : wanted l = true → Trail a wanted l [l]
  | root {l : Link} : wanted l = false → a.parent? l = none → Trail a wanted l [l]
  | onward {l p : Link} {path : List Link} : wanted l = false → a.parent? l = some p →
    Trail a wanted p path → Trail a wanted l (l :: path)

variable {a : Arena} {wanted : Link → Bool} {l m p : Link} {path other : List Link}
  {steps : Nat}

theorem parentOf_eq : parentOf l a = .ok (a.parent? l) a := by
  unfold parentOf parent?
  split
  · rfl
  · rfl

theorem mem_links_of_parent? (h : a.parent? l = some p) : p ∈ a.links := by
  unfold parent? at h
  split at h
  · cases h
  · exact (mem_of_find? h).1

namespace Trail

theorem head_eq (h : a.Trail wanted l path) : ∃ rest, path = l :: rest := by
  cases h with
  | found _ => exact ⟨[], rfl⟩
  | root _ _ => exact ⟨[], rfl⟩
  | onward _ _ _ => exact ⟨_, rfl⟩

theorem unique (h : a.Trail wanted l path) (h' : a.Trail wanted l other) : path = other := by
  induction h generalizing other with
  | found hw =>
    cases h' with
    | found _ => rfl
    | root hw' _ => simp [hw] at hw'
    | onward hw' _ _ => simp [hw] at hw'
  | root hw hp =>
    cases h' with
    | found hw' => simp [hw] at hw'
    | root _ _ => rfl
    | onward _ hp' _ => simp [hp] at hp'
  | onward hw hp _ ih =>
    cases h' with
    | found hw' => simp [hw] at hw'
    | root _ hp' => simp [hp] at hp'
    | onward _ hp' hrest =>
      rw [hp] at hp'
      obtain rfl := Option.some.inj hp'
      rw [ih hrest]

theorem from_mem (h : a.Trail wanted l path) (hm : m ∈ path) :
    ∃ rest, a.Trail wanted m rest ∧ rest.length ≤ path.length := by
  induction h with
  | found hw =>
    obtain rfl := List.mem_singleton.mp hm
    exact ⟨_, .found hw, Nat.le_refl _⟩
  | root hw hp =>
    obtain rfl := List.mem_singleton.mp hm
    exact ⟨_, .root hw hp, Nat.le_refl _⟩
  | onward hw hp hrest ih =>
    rcases List.mem_cons.mp hm with rfl | hm
    · exact ⟨_, .onward hw hp hrest, Nat.le_refl _⟩
    · obtain ⟨rest, hr, hle⟩ := ih hm
      exact ⟨rest, hr, Nat.le_succ_of_le hle⟩

/-- Whoever comes back to a link goes round in a circle. -/
theorem nodup (h : a.Trail wanted l path) : path.Nodup := by
  induction h with
  | found _ => exact List.nodup_singleton _
  | root _ _ => exact List.nodup_singleton _
  | onward hw hp hrest ih =>
    refine List.nodup_cons.mpr ⟨fun hm => ?_, ih⟩
    obtain ⟨rest, hr, hle⟩ := hrest.from_mem hm
    rw [hr.unique (.onward hw hp hrest), List.length_cons] at hle
    omega

theorem tail_subset (h : a.Trail wanted l path) : path.tail ⊆ a.links := by
  induction h with
  | found _ => simp
  | root _ _ => simp
  | onward _ hp hrest ih =>
    obtain ⟨rest, rfl⟩ := hrest.head_eq
    exact List.cons_subset.mpr ⟨mem_links_of_parent? hp, ih⟩

theorem length_le (h : a.Trail wanted l path) : path.length ≤ a.links.length + 1 := by
  have htail := (List.subperm_of_subset h.nodup.tail h.tail_subset).length_le
  rw [List.length_tail] at htail
  omega

theorem firstWithin (h : a.Trail wanted l path) (hsteps : path.length ≤ steps) :
    firstWithin wanted steps l a = .ok (path.find? wanted) a := by
  induction h generalizing steps with
  | found hw =>
    obtain ⟨steps, rfl⟩ := Nat.exists_eq_add_of_le' hsteps
    simp [BlockTree.firstWithin, hw, pure, EStateM.pure]
  | root hw hp =>
    obtain ⟨steps, rfl⟩ := Nat.exists_eq_add_of_le' hsteps
    simp [BlockTree.firstWithin, hw, bind, EStateM.bind, parentOf_eq, hp, pure, EStateM.pure]
  | onward hw hp _ ih =>
    obtain ⟨steps, rfl⟩ : ∃ n, steps = n + 1 := ⟨steps - 1, by simp at hsteps; omega⟩
    have hrest := ih (Nat.le_of_succ_le_succ hsteps)
    simpa [BlockTree.firstWithin, hw, bind, EStateM.bind, parentOf_eq, hp] using hrest

end Trail

theorem firstWithin_cases (wanted : Link → Bool) (steps : Nat) (l : Link) :
    (∃ path, a.Trail wanted l path) ∨
      firstWithin wanted steps l a = .error (.invariant .endlessAncestry) a := by
  induction steps generalizing l with
  | zero => exact .inr rfl
  | succ steps ih =>
    by_cases hw : wanted l
    · exact .inl ⟨_, .found hw⟩
    · have hw : wanted l = false := by simpa using hw
      cases hp : a.parent? l with
      | none => exact .inl ⟨_, .root hw hp⟩
      | some p =>
        obtain ⟨path, hpath⟩ | hend := ih p
        · exact .inl ⟨_, .onward hw hp hpath⟩
        · right
          simpa [firstWithin, hw, bind, EStateM.bind, parentOf_eq, hp] using hend

/-- More steps than there are stored links find no more. -/
theorem firstWithin_eq (wanted : Link → Bool) (l : Link) {more : Nat}
    (hsteps : a.links.length < steps) (hmore : a.links.length < more) :
    firstWithin wanted steps l a = firstWithin wanted more l a := by
  by_cases h : ∃ path, a.Trail wanted l path
  · obtain ⟨path, hpath⟩ := h
    have hlength := hpath.length_le
    rw [hpath.firstWithin (by omega), hpath.firstWithin (by omega)]
  · rw [(firstWithin_cases wanted steps l).resolve_left h,
      (firstWithin_cases wanted more l).resolve_left h]

theorem left_parentOf : left (parentOf l a) = a := by
  rw [parentOf_eq]
  rfl

theorem left_firstWithin : left (firstWithin wanted steps l a) = a := by
  induction steps generalizing l with
  | zero => rfl
  | succ steps ih =>
    by_cases hw : wanted l
    · simp [firstWithin, hw, pure, EStateM.pure, left]
    · cases hp : a.parent? l with
      | none =>
        simp [firstWithin, hw, bind, EStateM.bind, parentOf_eq, hp, pure, EStateM.pure, left]
      | some p => simpa [firstWithin, hw, bind, EStateM.bind, parentOf_eq, hp] using ih

end Arena

namespace Shelf

variable {s : Shelf} {a : Arena} {α β : Type}

theorem Echoes.bind {act : StoreM Shelf α} {act' : StoreM Arena α} {next : α → StoreM Shelf β}
    {next' : α → StoreM Arena β} (h : Echoes (act s) (act' a))
    (hnext : ∀ v t b, t.Holds b → Echoes (next v t) (next' v b)) :
    Echoes ((act >>= next) s) ((act' >>= next') a) := by
  simp only [Bind.bind, EStateM.bind]
  cases hs : act s with
  | ok v t =>
    cases ha : act' a with
    | ok w b =>
      rw [hs, ha] at h
      obtain ⟨rfl, hhold⟩ := h
      exact hnext v t b hhold
    | error f b =>
      rw [hs, ha] at h
      exact h.elim
  | error e t =>
    cases ha : act' a with
    | ok w b =>
      rw [hs, ha] at h
      exact h.elim
    | error f b =>
      rw [hs, ha] at h
      exact h

namespace Holds

theorem parentOf (h : s.Holds a) (l : Link) : Echoes (parentOf l s) (parentOf l a) := by
  unfold BlockTree.parentOf
  split
  · exact ⟨rfl, h⟩
  · obtain ⟨t, ht, hhold⟩ := h.load l.parentHash
    exact .of_ok ht hhold

theorem firstWithin (h : s.Holds a) (wanted : Link → Bool) (steps : Nat) (l : Link) :
    Echoes (firstWithin wanted steps l s) (firstWithin wanted steps l a) := by
  induction steps generalizing s a l with
  | zero => exact ⟨rfl, h⟩
  | succ steps ih =>
    rw [BlockTree.firstWithin, BlockTree.firstWithin]
    split
    · exact ⟨rfl, h⟩
    · refine (h.parentOf l).bind fun parent? t b hhold => ?_
      cases parent? with
      | none => exact ⟨rfl, hhold⟩
      | some p => exact ih hhold p

theorem firstOnBranch (h : s.Holds a) (wanted : Link → Bool) (l : Link) :
    Echoes (firstOnBranch wanted l s) (firstOnBranch wanted l a) := by
  have hreach : a.links.length ≤ Store.reach s := Faithful.reach h
  have hsteps : a.links.length < Store.reach s + 1 := Nat.lt_succ_of_le hreach
  have hsame := Arena.firstWithin_eq wanted l hsteps (Nat.lt_succ_self _)
  have hwalk := h.firstWithin wanted (Store.reach s + 1) l
  rw [hsame] at hwalk
  exact hwalk

end Holds

end Shelf

end BlockTree
