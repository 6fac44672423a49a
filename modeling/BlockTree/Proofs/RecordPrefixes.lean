import BlockTree.Proofs.Observation

/-! Byte strings that break off. A reader goes through a string from its front and never
looks at what follows, so a record that is cut short cannot be read as another one. -/

namespace BlockTree

namespace Record

variable {α β : Type} {reader : Reader α} {next : α → Reader β} {bs cs : Bytes} {v w : α}

/-- What is read was the front of the string, and is read off whatever else begins so. -/
def Frontal (reader : Reader α) : Prop :=
  ∀ bs v rest, reader bs = some (v, rest) → ∃ front, bs = front ++ rest ∧ Restores reader front v

theorem Frontal.pure (v : α) : Frontal (pure v) := by
  intro bs w rest h
  have h : some (v, bs) = some (w, rest) := h
  cases h
  exact ⟨[], rfl, .pure⟩

theorem Frontal.fail : Frontal (fail (α := α)) := by
  intro bs v rest h
  cases h

theorem Frontal.bind (h : Frontal reader) (hnext : ∀ v, Frontal (next v)) :
    Frontal (reader >>= next) := by
  intro bs w rest hrun
  have hrun : (reader bs).bind (fun p => next p.1 p.2) = some (w, rest) := hrun
  obtain ⟨⟨v, between⟩, hfirst, hlast⟩ := Option.bind_eq_some_iff.mp hrun
  obtain ⟨front, rfl, hfront⟩ := h bs v between hfirst
  obtain ⟨back, rfl, hback⟩ := hnext v between w rest hlast
  exact ⟨front ++ back, (List.append_assoc front back rest).symm, hfront.bind hback⟩

theorem take_eq_some {n : Nat} {front rest : Bytes} (h : take n bs = some (front, rest)) :
    bs = front ++ rest ∧ front.length = n := by
  induction n generalizing bs front rest with
  | zero =>
    obtain ⟨rfl, rfl⟩ : [] = front ∧ bs = rest := by simpa [take] using h
    exact ⟨rfl, rfl⟩
  | succ n ih =>
    cases bs with
    | nil => simp [take] at h
    | cons b bs =>
      cases hrest : take n bs with
      | none => simp [take, hrest] at h
      | some p =>
        obtain ⟨taken, left⟩ := p
        obtain ⟨rfl, hlen⟩ := ih hrest
        obtain ⟨rfl, rfl⟩ : b :: taken = front ∧ left = rest := by simpa [take, hrest] using h
        exact ⟨rfl, by simp [hlen]⟩

theorem frontal_take (n : Nat) : Frontal (take n) := by
  intro bs front rest h
  obtain ⟨hbs, hlen⟩ := take_eq_some h
  exact ⟨front, hbs, restores_take hlen⟩

theorem frontal_nat (width : Nat) : Frontal (nat width) :=
  (frontal_take width).bind fun _ => .pure _

theorem frontal_repeated {item : Reader α} (h : Frontal item) (n : Nat) :
    Frontal (repeated item n) := by
  induction n with
  | zero => exact .pure _
  | succ n ih => exact h.bind fun _ => ih.bind fun _ => .pure _

theorem frontal_list {item : Reader α} (h : Frontal item) : Frontal (list item) :=
  (frontal_nat 8).bind (frontal_repeated h)

theorem frontal_ascii : Frontal ascii :=
  ((frontal_nat 8).bind frontal_take).bind fun _ => .pure _

theorem frontal_hash : Frontal hash := by
  refine frontal_ascii.bind fun text => ?_
  cases Hash.parse? text with
  | none => exact .fail
  | some h => exact .pure h

theorem frontal_script : Frontal script := by
  refine frontal_ascii.bind fun text => ?_
  cases Hex.decode text with
  | ok bs => exact .pure bs
  | error e => exact .fail

theorem frontal_u32 : Frontal u32 :=
  (frontal_nat 4).bind fun _ => .pure _

theorem frontal_u64 : Frontal u64 :=
  (frontal_nat 8).bind fun _ => .pure _

theorem frontal_i64 : Frontal i64 :=
  frontal_u64.bind fun _ => .pure _

theorem frontal_txInput : Frontal txInput :=
  (frontal_hash.bind fun _ => frontal_u32.bind fun _ => .pure _).bind fun _ =>
    frontal_script.bind fun _ => .pure _

theorem frontal_txOutput : Frontal txOutput :=
  frontal_u64.bind fun _ => frontal_script.bind fun _ => .pure _

theorem frontal_transaction : Frontal transaction :=
  frontal_u32.bind fun _ => (frontal_list frontal_txInput).bind fun _ =>
    (frontal_list frontal_txOutput).bind fun _ => frontal_u32.bind fun _ => .pure _

theorem frontal_header : Frontal header :=
  frontal_u32.bind fun _ => frontal_hash.bind fun _ => frontal_hash.bind fun _ =>
    frontal_i64.bind fun _ => frontal_u32.bind fun _ => frontal_u32.bind fun _ => .pure _

theorem frontal_block : Frontal block :=
  frontal_header.bind fun _ => (frontal_list frontal_transaction).bind fun _ => .pure _

theorem frontal_status : Frontal status := by
  refine (frontal_nat 4).bind fun tag => ?_
  match tag with
  | 0 => exact .pure _
  | 1 =>
    have hwork : Frontal work := (frontal_list frontal_u32).bind fun _ => .pure _
    exact (frontal_nat 8).bind fun _ => hwork.bind fun _ => .pure _
  | _ + 2 => exact .fail

theorem frontal_link : Frontal link :=
  frontal_hash.bind fun _ => frontal_block.bind fun _ => frontal_status.bind fun _ =>
    (frontal_nat 8).bind fun _ => .pure _

/-- What is read off a part would be read off the whole as well, and leave something over. -/
theorem Frontal.eq_none (hreader : Frontal reader) (h : Restores reader bs v)
    (hcut : cs <+: bs) (hne : cs ≠ bs) : reader cs = none := by
  obtain ⟨missing, rfl⟩ := hcut
  cases hread : reader cs with
  | none => rfl
  | some p =>
    obtain ⟨w, rest⟩ := p
    obtain ⟨front, rfl, hfront⟩ := hreader cs w rest hread
    have hwhole := h []
    rw [List.append_nil, List.append_assoc, hfront (rest ++ missing)] at hwhole
    have hempty : rest ++ missing = [] := by simpa using congrArg (Option.map Prod.snd) hwhole
    have hmissing : missing = [] := (List.append_eq_nil_iff.mp hempty).2
    exact absurd (by rw [hmissing, List.append_nil]) hne

theorem length_ofLink_pos (l : Link) : 0 < (ofLink l).length := by
  rw [ofLink, List.length_append, length_littleEndian]
  omega

theorem Restores.prefix_unique (h : Restores reader bs v) (h' : Restores reader cs w)
    (hpre : bs <+: cs) : v = w := by
  obtain ⟨rest, rfl⟩ := hpre
  have hread := h' []
  rw [List.append_nil, h rest] at hread
  exact (Prod.mk.inj (Option.some.inj hread)).1

end Record

/-- A record whose numbers fit into their bytes is read off whatever begins with it, and
nothing is read off less than all of it. No two links share a record, and no record begins
with that of another link. -/
theorem Trees.decodeLink_exact {l : Link} (h : l.Writable) :
    (∀ rest, decodeLink (Record.ofLink l ++ rest) = .ok l) ∧
    (∀ front, front <+: Record.ofLink l → front ≠ Record.ofLink l →
      decodeLink front = .error (.storage (.codec .decoding))) ∧
    ∀ m : Link, m.Writable → (Record.ofLink m <+: Record.ofLink l ↔ m = l) := by
  have hl := Record.restores_link h
  refine ⟨?_, ?_, ?_⟩
  · intro rest
    rw [decodeLink, Record.decode, hl rest]
    rfl
  · intro front hcut hne
    rw [decodeLink, Record.decode, Record.frontal_link.eq_none hl hcut hne]
    rfl
  · intro m hm
    constructor
    · intro hpre
      exact (Record.restores_link hm).prefix_unique hl hpre
    · intro he
      exact he ▸ List.prefix_rfl

/-- More work than a word of the machine can hold. -/
def Link.heavy : Link :=
  .resolved (.easy .zero [.coinbase 7]) 3 (2 ^ 70)

theorem Link.writable_heavy : heavy.Writable := by
  refine ⟨Block.writable_easy .zero 7, Nat.two_pow_pos 64, ?_⟩
  intro height work hs
  obtain ⟨rfl, rfl⟩ : 3 = height ∧ 2 ^ 70 = work := by
    simpa [heavy, Link.resolved, Link.make] using hs
  exact ⟨by decide, by decide⟩

theorem Trees.decodeLink_exact_heavy : Link.heavy.Writable ∧
    decodeLink (Record.ofLink .heavy ++ [1, 2]) = .ok .heavy ∧
    decodeLink (Record.ofLink .heavy).dropLast = .error (.storage (.codec .decoding)) ∧
    ¬ Record.ofLink (.withSeq .heavy 1) <+: Record.ofLink .heavy := by
  obtain ⟨hwhole, hcut, hother⟩ := decodeLink_exact Link.writable_heavy
  have hlater : (Link.heavy.withSeq 1).Writable := Link.writable_heavy.withSeq (by decide)
  refine ⟨Link.writable_heavy, hwhole [1, 2], hcut _ (List.dropLast_prefix _) ?_, ?_⟩
  · intro hsame
    have hlen := congrArg List.length hsame
    have hpos := Record.length_ofLink_pos .heavy
    rw [List.length_dropLast] at hlen
    omega
  · rw [hother _ hlater]
    intro hsame
    have hseq : 1 = 0 := congrArg Link.seq hsame
    omega

end BlockTree
