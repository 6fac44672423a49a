import BlockTree.Proofs.Delivery

/-! What comes back for blocks handed in one after another, on a store without failing
calls. Then a block is either refused or taken in, and the node says which. -/

namespace BlockTree.Node

section Runs

variable {σ : Type} [Store σ]

def reply (n : Node σ) (d : Delivery) : Except Error Outcome :=
  match submit d.now d.block n with
  | .ok o _ => .ok o
  | .error e _ => .error e

def replies (n : Node σ) : List Delivery → List (Except Error Outcome)
  | [] => []
  | d :: ds => n.reply d :: (n.deliver d).replies ds

end Runs

variable {d : Delivery} {ds : List Delivery} {x y : Node Arena} {r : Except Error Outcome}
  {rs : List (Except Error Outcome)}

/-- What a node says of a block, and what becomes of the node, when no call fails. -/
inductive Replies (x : Node Arena) (d : Delivery) : Except Error Outcome → Node Arena → Prop
  | refused {e : Error} : x.refusal? d.now d.block = some e → Replies x d (.error e) (x.noted e)
  | submitted {o : Outcome} {y : Node Arena} :
    x.Submitted d.now d.block o y → Replies x d (.ok o) y

inductive RepliesAll :
    Node Arena → List Delivery → List (Except Error Outcome) → Node Arena → Prop
  | done {x : Node Arena} : RepliesAll x [] [] x
  | next {x y z : Node Arena} {d : Delivery} {ds : List Delivery} {r : Except Error Outcome}
    {rs : List (Except Error Outcome)} :
    x.Replies d r y → RepliesAll y ds rs z → RepliesAll x (d :: ds) (r :: rs) z

theorem Replies.receives (h : x.Replies d r y) : ∃ change?, x.Receives False d change? y := by
  cases h with
  | refused hrefused => exact ⟨none, .refused hrefused⟩
  | submitted ho => exact ⟨_, .submitted ho⟩

theorem Replies.sound (h : x.Replies d r y) (hx : x.Sound) : y.Sound ∧ x.Keeps y := by
  obtain ⟨_, hreceives⟩ := h.receives
  exact hreceives.sound hx

theorem Replies.settled (h : x.Replies d r y) (hx : x.engine.tip? = x.store.bestLink?) :
    y.engine.tip? = y.store.bestLink? := by
  obtain ⟨_, hreceives⟩ := h.receives
  exact hreceives.settled hx

theorem Replies.config_eq (h : x.Replies d r y) : y.engine.config = x.engine.config := by
  cases h with
  | refused => rfl
  | submitted ho => rw [ho.settles.config_eq, config_taken]

theorem Replies.of_refused {e : Error} (h : x.Replies d r y)
    (hrefused : x.refusal? d.now d.block = some e) : r = .error e ∧ y = x.noted e := by
  cases h with
  | refused hsame =>
    cases hsame.symm.trans hrefused
    exact ⟨rfl, rfl⟩
  | submitted ho => cases ho.admitted.symm.trans hrefused

theorem RepliesAll.config_eq (h : x.RepliesAll ds rs y) :
    y.engine.config = x.engine.config := by
  induction h with
  | done => rfl
  | next hstep _ ih => rw [ih, hstep.config_eq]

theorem RepliesAll.sound (h : x.RepliesAll ds rs y) (hx : x.Sound) : y.Sound ∧ x.Keeps y := by
  induction h with
  | done => exact ⟨hx, fun _ hl _ => hl⟩
  | next hstep _ ih =>
    obtain ⟨hy, hxy⟩ := hstep.sound hx
    obtain ⟨hz, hyz⟩ := ih hy
    exact ⟨hz, fun l hl hr => hyz l (hxy l hl hr) hr⟩

section Stores

variable {σ : Type} [Medium σ] [Faithful σ] {n : Node σ}

theorem Shows.reply (h : Node.Shows False n x) (hx : x.Sound)
    (hfits : x.refusal? d.now d.block = none → Faithful.fits σ x.store.nextSeq d.block) :
    ∃ y, Node.Shows False (n.deliver d) y ∧ x.Replies d (n.reply d) y := by
  have hsubmit := ends_submit (σ := σ) (F := False) hx hfits n h
  unfold Node.deliver Node.reply after
  cases hrun : submit d.now d.block n with
  | ok o m =>
    simp only [hrun] at hsubmit ⊢
    obtain ⟨y, hy, ho⟩ := hsubmit
    exact ⟨y, hy, .submitted ho⟩
  | error e m =>
    simp only [hrun] at hsubmit ⊢
    obtain ⟨y, hy, ⟨hrefused, hnoted⟩ | ⟨hF, -⟩⟩ := hsubmit
    · subst hnoted
      exact ⟨_, hy, .refused hrefused⟩
    · exact hF.elim

theorem Shows.replies (h : Node.Shows False n x) (hx : x.Sound) (hroom : n.HasRoom ds) :
    ∃ y, Node.Shows False (n.feed ds) y ∧ x.RepliesAll ds (n.replies ds) y := by
  induction ds generalizing n x with
  | nil => exact ⟨x, h, .done⟩
  | cons d ds ih =>
    obtain ⟨hfirst, hrest⟩ := hroom
    obtain ⟨y, hy, hstep⟩ := h.reply hx fun _ => Faithful.fits_of_room h.2.1 hfirst
    obtain ⟨z, hz, hsteps⟩ := ih hy (hstep.sound hx).1 hrest
    exact ⟨z, hz, .next hstep hsteps⟩

end Stores

end BlockTree.Node
