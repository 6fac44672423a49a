import BlockTree.Outage
import BlockTree.Proofs.Contract
import BlockTree.Proofs.Lineage

/-! Stores that answer as an arena does. What is shown of an arena then holds of
every such store, also of one whose calls fail at any moments. -/

namespace BlockTree

/-- A store with what is around it: how it begins, what can happen to it between two
calls, and whether it can take in one more block. -/
class Medium (σ : Type) extends Store σ where
  empty : σ
  drifts : σ → σ → Prop
  /-- Whether the block, and the number of links filed after it, can be written. -/
  room : σ → Block → Prop

instance : Medium Arena where
  empty := {}
  drifts a b := b = a
  room _ _ := True

instance {σ : Type} [Medium σ] : Medium (Unreliable σ) where
  empty := ⟨Medium.empty, []⟩
  drifts u v := Medium.drifts u.store v.store
  room u := Medium.room u.store

namespace Arena

structure Sound (a : Arena) : Prop where
  ordered : a.Ordered
  pointed : a.Pointed
  chained : a.Chained

theorem sound_empty : Sound {} :=
  ⟨ordered_empty, pointed_empty, chained_empty⟩

def Bounded (a : Arena) (link : Link) : Prop :=
  ∀ h w : Nat, link.status = .resolved h w → h ≤ a.links.length ∧ w ≤ h * 2 ^ 256

/-- The calls that a well-kept store is promised. Writes bring in new links, which
`fits` lets in, or replace and drop orphans. -/
def Promised (fits : Nat → Block → Prop) (a : Arena) : {α : Type} → Call α → Prop
  | _, .addLink link => link.isOrphan ∧ a.Files link [] ∧ fits a.nextSeq link.block
  | _, .updateLink _ => False
  | _, .addAndPromote link promoted =>
    a.Files link promoted ∧ fits a.nextSeq link.block ∧
      ∀ l ∈ link :: promoted, a.Bounded l
  | _, .removeOrphan hash => ∃ l, a.find? hash = some l ∧ l.isOrphan
  | _, _ => True

end Arena

class Faithful (σ : Type) [Medium σ] where
  holds : σ → Arena → Prop
  /-- A call may fail for no reason of its own. -/
  troubled : σ → Prop
  /-- Whether a block can be written as the link of a given number. -/
  fits : Nat → Block → Prop
  holds_empty : holds Medium.empty {}
  holds_drift {s t : σ} {a : Arena} : holds s a → Medium.drifts s t → holds t a
  fits_of_room {s : σ} {a : Arena} {block : Block} :
    holds s a → Medium.room s block → fits a.nextSeq block
  reach {s : σ} {a : Arena} : holds s a → a.links.length ≤ Store.reach s
  answers {s : σ} {a b : Arena} {α : Type} {call : Call α} {v : α} :
    holds s a → a.Sound → a.Promised fits call → Arena.answer call a = .ok v b →
      (∃ t, Store.answer call s = .ok v t ∧ holds t b ∧ (troubled t → troubled s)) ∨
      (troubled s ∧ ∃ t, Store.answer call s = .error Unreliable.failure t ∧ holds t a)

instance : Faithful Arena where
  holds s a := s = a
  troubled _ := False
  fits _ _ := True
  holds_empty := rfl
  holds_drift := by rintro s t a rfl h; exact h
  fits_of_room _ _ := trivial
  reach := by rintro s a rfl; exact Nat.le_refl _
  answers := by
    rintro s a b α call v rfl - - h
    exact .inl ⟨b, h, rfl, id⟩

def Unreliable.Flawed {σ : Type} (u : Unreliable σ) : Prop :=
  ∃ o ∈ u.outages, ∃ n, o.fails n

namespace Unreliable

variable {σ : Type} {u : Unreliable σ} {method : Method}

theorem flawed_of_stops (h : u.stops method) : u.Flawed := by
  obtain ⟨o, ho, hs⟩ := List.any_eq_true.mp h
  exact ⟨o, ho, o.calls, (Bool.and_eq_true_iff.mp hs).2⟩

theorem flawed_of_count (h : (u.count method).Flawed) : u.Flawed := by
  obtain ⟨o, ho, n, hn⟩ := h
  obtain ⟨o', ho', rfl⟩ := List.mem_map.mp ho
  refine ⟨o', ho', n, ?_⟩
  by_cases he : o'.method = method
  · simpa [he] using hn
  · simpa [he] using hn

end Unreliable

instance {σ : Type} [Medium σ] [Faithful σ] : Faithful (Unreliable σ) where
  holds u a := Faithful.holds u.store a
  troubled u := Faithful.troubled u.store ∨ u.Flawed
  fits := Faithful.fits σ
  holds_empty := Faithful.holds_empty
  holds_drift := Faithful.holds_drift
  fits_of_room := Faithful.fits_of_room
  reach := Faithful.reach
  answers := by
    intro u a b α call v hu ha hp he
    by_cases hs : u.stops call.method
    · have hf := Unreliable.flawed_of_stops hs
      exact .inr ⟨.inr hf, u.count call.method, by simp [Store.answer, Unreliable.answer, hs], hu⟩
    · have hun : Store.answer call u =
          Unreliable.behind (Store.answer call) (u.count call.method) := by
        simp [Store.answer, Unreliable.answer, hs]
      rw [hun]
      rcases Faithful.answers hu ha hp he with ⟨t, ht, htb, hback⟩ | ⟨hbad, t, ht, hta⟩
      · refine .inl ⟨{ u.count call.method with store := t }, ?_, htb, ?_⟩
        · have : Store.answer call (u.count call.method).store = .ok v t := ht
          simp [Unreliable.behind, this]
        · rintro (h | h)
          · exact .inl (hback h)
          · exact .inr (Unreliable.flawed_of_count h)
      · refine .inr ⟨.inl hbad, { u.count call.method with store := t }, ?_, hta⟩
        have : Store.answer call (u.count call.method).store = .error Unreliable.failure t := ht
        simp [Unreliable.behind, this]

end BlockTree
