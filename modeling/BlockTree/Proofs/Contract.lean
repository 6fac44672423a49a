import BlockTree.Store

/-! Contracts of computations that may fail. What a state looks like from outside is
told by a relation to something simpler, and a contract speaks of that alone. -/

namespace BlockTree

variable {S A α β : Type} {shows : S → A → Prop}

theorem get_apply (s : S) : (get : StoreM S S) s = .ok s s :=
  rfl

/-- Started in a state that shows `x`, the computation ends in one that shows what
`ok` allows for its answer, or what `bad` allows for its error. -/
def Ends (shows : S → A → Prop) (act : EStateM Error S α) (x : A)
    (ok : α → A → Prop) (bad : Error → A → Prop) : Prop :=
  ∀ s, shows s x →
    match act s with
    | .ok v t => ∃ y, shows t y ∧ ok v y
    | .error e t => ∃ y, shows t y ∧ bad e y

namespace Ends

variable {act : EStateM Error S α} {next : α → EStateM Error S β} {x : A}
  {ok ok' : α → A → Prop} {bad bad' : Error → A → Prop}

theorem pure {v : α} (h : ok v x) : Ends shows (pure v) x ok bad :=
  fun _ hs => ⟨x, hs, h⟩

theorem throw {e : Error} (h : bad e x) : Ends shows (throw e : EStateM Error S α) x ok bad :=
  fun _ hs => ⟨x, hs, h⟩

theorem bind {ok : β → A → Prop}
    (h : Ends shows act x (fun v y => Ends shows (next v) y ok bad) bad) :
    Ends shows (act >>= next) x ok bad := by
  intro s hs
  have hh := h s hs
  change match EStateM.bind act next s with | .ok v t => _ | .error e t => _
  unfold EStateM.bind
  cases he : act s with
  | ok v t =>
    simp only [he] at hh
    obtain ⟨y, hy, hn⟩ := hh
    exact hn t hy
  | error e t =>
    simp only [he] at hh
    exact hh

theorem mono (h : Ends shows act x ok bad) (hok : ∀ v y, ok v y → ok' v y)
    (hbad : ∀ e y, bad e y → bad' e y) : Ends shows act x ok' bad' := by
  intro s hs
  have hh := h s hs
  cases he : act s with
  | ok v t =>
    simp only [he] at hh ⊢
    obtain ⟨y, hy, hv⟩ := hh
    exact ⟨y, hy, hok v y hv⟩
  | error e t =>
    simp only [he] at hh ⊢
    obtain ⟨y, hy, hv⟩ := hh
    exact ⟨y, hy, hbad e y hv⟩

theorem map {f : α → β} {ok : β → A → Prop} (h : Ends shows act x (fun v y => ok (f v) y) bad) :
    Ends shows (f <$> act) x ok bad := by
  rw [map_eq_pure_bind]
  exact bind (h.mono (fun _ _ hv => pure hv) fun _ _ hv => hv)

theorem of_ok (h : Ends shows act x ok bad) {s t : S} {v : α} (hs : shows s x)
    (he : act s = .ok v t) : ∃ y, shows t y ∧ ok v y := by
  have hh := h s hs
  simpa only [he] using hh

theorem of_error (h : Ends shows act x ok bad) {s t : S} {e : Error} (hs : shows s x)
    (he : act s = .error e t) : ∃ y, shows t y ∧ bad e y := by
  have hh := h s hs
  simpa only [he] using hh

end Ends

end BlockTree
