import BlockTree.Proofs.ChainInvariant
import Mathlib.Algebra.Order.Floor.Semifield
import Mathlib.Data.Nat.Bitwise
import Mathlib.Data.Rat.Floor
import Mathlib.Tactic.Positivity

/-! Targets and the work that they stand for. The smaller the target, the more the work, and
there is some for every target. So the work of a link is more than that of its parent. -/

namespace BlockTree

variable {bits : UInt32} {target work : Nat}

namespace Target

/-- A number of 23 bits, times a power of 256. -/
def denoted (bits : UInt32) : ℚ :=
  (bits &&& 0x7fffff).toNat * (256 : ℚ) ^ (((bits >>> 24).toNat : ℤ) - 3)

/-- The sign bit is clear, and the target is what is left of the number below its point. -/
structure Denotes (bits : UInt32) (target : Nat) : Prop where
  clear : bits &&& 0x800000 = 0
  floor : target = ⌊denoted bits⌋₊
  pos : 1 ≤ target
  lt : target < 2 ^ 256

theorem toNat_mantissa (bits : UInt32) : (bits &&& 0x7fffff).toNat = mantissa bits := by
  rw [UInt32.toNat_and]
  exact Nat.and_two_pow_sub_one_eq_mod bits.toNat 23

theorem toNat_exponent (bits : UInt32) : (bits >>> 24).toNat = exponent bits := by
  rw [UInt32.toNat_shiftRight]
  exact Nat.shiftRight_eq_div_pow bits.toNat 24

theorem signed_eq_false_iff : signed bits = false ↔ bits &&& 0x800000 = 0 := by
  have hand : (bits &&& 0x800000).toNat = (bits.toNat.testBit 23).toNat * 2 ^ 23 := by
    rw [UInt32.toNat_and]
    exact Nat.and_two_pow bits.toNat 23
  have htest : bits.toNat.testBit 23 = signed bits := Nat.testBit_eq_decide_div_mod_eq
  rw [← UInt32.toNat_inj, hand, htest]
  cases signed bits <;> simp

theorem magnitude_eq (bits : UInt32) :
    magnitude bits = mantissa bits * 256 ^ exponent bits / 256 ^ 3 := by
  unfold magnitude
  split
  · next hle =>
    obtain ⟨k, hk⟩ : ∃ k, 3 = exponent bits + k := ⟨3 - exponent bits, by omega⟩
    have hsub : 3 - exponent bits = k := by omega
    rw [hsub, hk, Nat.pow_add, Nat.mul_comm (256 ^ exponent bits) (256 ^ k)]
    exact (Nat.mul_div_mul_right _ _ (by positivity)).symm
  · next hgt =>
    obtain ⟨k, hk⟩ : ∃ k, exponent bits = k + 3 := ⟨exponent bits - 3, by omega⟩
    rw [hk, Nat.add_sub_cancel, Nat.pow_add, ← Nat.mul_assoc]
    exact (Nat.mul_div_cancel _ (by decide)).symm

theorem floor_denoted (bits : UInt32) : ⌊denoted bits⌋₊ = magnitude bits := by
  have hsplit : denoted bits =
      ((mantissa bits * 256 ^ exponent bits : ℕ) : ℚ) / ((256 ^ 3 : ℕ) : ℚ) := by
    rw [denoted, toNat_mantissa, toNat_exponent, zpow_sub₀ (by norm_num), mul_div_assoc']
    push_cast
    rfl
  rw [hsplit, Nat.floor_div_eq_div, magnitude_eq]

theorem signed_eq_false_of_magnitude (hsign : ¬ (signed bits ∧ mantissa bits ≠ 0))
    (hne : magnitude bits ≠ 0) : signed bits = false := by
  by_contra hs
  have hm : mantissa bits = 0 := by
    by_contra hm
    exact hsign ⟨by simpa using hs, hm⟩
  exact hne (by rw [magnitude_eq, hm, Nat.zero_mul, Nat.zero_div])

theorem expand_eq_ok_iff : expand bits = .ok target ↔ Denotes bits target := by
  unfold expand
  by_cases hsign : signed bits ∧ mantissa bits ≠ 0
  · have hclear : ¬ bits &&& 0x800000 = 0 := by
      rw [← signed_eq_false_iff]
      simp [hsign.1]
    simpa [hsign] using fun h : Denotes bits target => hclear h.clear
  · by_cases hzero : magnitude bits = 0
    · have hnot : ¬ Denotes bits target := by
        rintro ⟨-, hfloor, hpos, -⟩
        rw [floor_denoted, hzero] at hfloor
        omega
      simp [hsign, hzero, hnot]
    · by_cases hover : 2 ^ 256 ≤ magnitude bits
      · have hnot : ¬ Denotes bits target := by
          rintro ⟨-, hfloor, -, hlt⟩
          rw [floor_denoted] at hfloor
          omega
        rw [if_neg hsign, if_neg hzero, if_pos hover]
        simpa using hnot
      · rw [if_neg hsign, if_neg hzero, if_neg hover]
        have hclear := signed_eq_false_iff.mp (signed_eq_false_of_magnitude hsign hzero)
        constructor
        · intro h
          cases h
          exact ⟨hclear, (floor_denoted bits).symm, by omega, by omega⟩
        · rintro ⟨-, hfloor, -, -⟩
          rw [hfloor, floor_denoted]

end Target

namespace Work

/-- The work is the number of times that the tries for the target go into all there are. -/
theorem eq_ofTarget_iff : work = ofTarget target ↔
    work * (target + 1) ≤ 2 ^ 256 ∧ 2 ^ 256 < (work + 1) * (target + 1) := by
  have hpos : 0 < target + 1 := Nat.succ_pos target
  rw [ofTarget, ← Nat.le_div_iff_mul_le hpos, ← Nat.div_lt_iff_lt_mul hpos]
  omega

theorem ofBits_eq_ok_iff :
    ofBits bits = .ok work ↔ ∃ target, Target.Denotes bits target ∧ work = ofTarget target := by
  unfold ofBits
  cases he : Target.expand bits with
  | error fault =>
    have hnone : ∀ target, ¬ Target.Denotes bits target := by
      intro target ht
      rw [Target.expand_eq_ok_iff.mpr ht] at he
      cases he
    simp [hnone]
  | ok target =>
    have ht := Target.expand_eq_ok_iff.mp he
    constructor
    · intro h
      exact ⟨target, ht, (Except.ok.inj h).symm⟩
    · rintro ⟨other, hother, rfl⟩
      rw [Target.expand_eq_ok_iff.mpr hother] at he
      rw [Except.ok.inj he]

theorem ofTarget_bounds (ht : Target.Denotes bits target) :
    1 ≤ ofTarget target ∧ ofTarget target ≤ 2 ^ 255 := by
  obtain ⟨-, -, hpos, hlt⟩ := ht
  constructor
  · exact Nat.div_pos hlt (Nat.succ_pos target)
  · calc 2 ^ 256 / (target + 1) ≤ 2 ^ 256 / 2 := Nat.div_le_div_left (by omega) (by decide)
      _ = 2 ^ 255 := by decide

end Work

/-- What the bits of a header come to. -/
structure Target.Weighed (bits : UInt32) : Prop where
  expand : ∀ target, Target.expand bits = .ok target ↔ Denotes bits target
  refused : (∀ target, ¬ Denotes bits target) → ∃ fault, Target.expand bits = .error fault ∧
    Work.ofBits bits = .error fault ∧ ∀ block : Block, block.header.bits = bits →
      Validation.checkWork block = .error (.invalidTarget fault bits)
  /-- The work is the one number of its size. -/
  work : ∀ target, Denotes bits target → ∃ work, Work.ofBits bits = .ok work ∧
    1 ≤ work ∧ work ≤ 2 ^ 255 ∧ ∀ other, other = work ↔
      other * (target + 1) ≤ 2 ^ 256 ∧ 2 ^ 256 < (other + 1) * (target + 1)
  antitone : ∀ target, Denotes bits target → ∀ harder smaller, Denotes harder smaller →
    smaller ≤ target → ∃ work more, Work.ofBits bits = .ok work ∧ Work.ofBits harder = .ok more ∧
      work ≤ more

theorem Target.weighed (bits : UInt32) : Weighed bits := by
  refine ⟨fun target => expand_eq_ok_iff, ?_, ?_, ?_⟩
  · intro hnone
    cases he : Target.expand bits with
    | ok target => exact absurd (expand_eq_ok_iff.mp he) (hnone target)
    | error fault =>
      refine ⟨fault, rfl, by rw [Work.ofBits, he], ?_⟩
      rintro block rfl
      simp [Validation.checkWork, Target.isMetBy, he]
  · intro target ht
    obtain ⟨hpos, hle⟩ := Work.ofTarget_bounds ht
    exact ⟨_, Work.ofBits_eq_ok_iff.mpr ⟨target, ht, rfl⟩, hpos, hle,
      fun other => Work.eq_ofTarget_iff⟩
  · intro target ht harder smaller hs hle
    refine ⟨_, _, Work.ofBits_eq_ok_iff.mpr ⟨target, ht, rfl⟩,
      Work.ofBits_eq_ok_iff.mpr ⟨smaller, hs, rfl⟩, ?_⟩
    exact Nat.div_le_div_left (Nat.succ_le_succ hle) (Nat.succ_pos smaller)

theorem Validation.exists_target {block : Block} (h : checkWork block = .ok work) :
    ∃ target, Target.Denotes block.header.bits target ∧ block.hash.toNat ≤ target ∧
      work = Work.ofTarget target := by
  unfold checkWork Target.isMetBy at h
  cases he : Target.expand block.header.bits with
  | error fault => simp [he] at h
  | ok target =>
    by_cases hmet : block.hash.toNat ≤ target
    · refine ⟨target, Target.expand_eq_ok_iff.mp he, hmet, ?_⟩
      simpa [he, hmet, Work.ofBits, eq_comm] using h
    · simp [he, hmet] at h

theorem Work.mul_hash_le {now drift : Int} {block : Block} (h : validate now drift block = .ok work) :
    work * (block.hash.toNat + 1) ≤ 2 ^ 256 := by
  obtain ⟨-, -, hcheck, -⟩ := Node.validate_eq_ok.mp h
  obtain ⟨target, -, hmet, hwork⟩ := Validation.exists_target hcheck
  calc work * (block.hash.toNat + 1) ≤ work * (target + 1) :=
        Nat.mul_le_mul_left work (Nat.succ_le_succ hmet)
    _ ≤ 2 ^ 256 := (eq_ofTarget_iff.mp hwork).1

namespace Node

variable {b : Backing} {permitted : ConsensusConfig → Prop} {n : b.Ledger}

theorem ChainInvariant.height_le (h : ChainInvariant permitted n) {height : Nat} {l : Link}
    (hl : n.Stores l) (hs : l.status = .resolved height work) : height ≤ work := by
  induction height generalizing l work with
  | zero => exact Nat.zero_le work
  | succ height ih =>
    have hz : l.parentHash.isZero = false := by
      apply Bool.eq_false_iff.mpr
      intro hz
      rw [h.root l hl hz] at hs
      cases hs
    obtain ⟨p, hp, -, k, w, own, hps, hown, hls⟩ :=
      h.stands l hl (Link.isResolved_iff.mpr ⟨_, _, hs⟩) hz
    rw [hs] at hls
    obtain ⟨rfl, rfl⟩ : height = k ∧ work = w + own := by simpa using hls
    exact Nat.add_le_add (ih hp hps) (Work.ofBits_pos hown)

/-- No block counts for more work than its hash can bear witness to, and all work adds up on
the way from the genesis block. -/
theorem outweighs_of_reachable (h : Reachable permitted n) :
    (∀ bits, Target.Weighed bits) ∧
    (∀ now drift block work, validate now drift block = .ok work →
      Work.ofBits block.header.bits = .ok work ∧ work * (block.hash.toNat + 1) ≤ 2 ^ 256) ∧
    ∀ l height work, n.Stores l → l.status = .resolved height work →
      height ≤ work ∧ (l.isGenesis ∨ ∃ p, n.Stores p ∧ p.hash = l.parentHash ∧
        ∃ k less, p.status = .resolved k less ∧ less < work) := by
  obtain ⟨x, hx⟩ := h.exists_mirror
  have hchain := hx.chainInvariant
  refine ⟨Target.weighed, ?_, ?_⟩
  · intro now drift block work hvalid
    exact ⟨validate_work hvalid, Work.mul_hash_le hvalid⟩
  · intro l height work hl hs
    refine ⟨hchain.height_le hl hs, ?_⟩
    by_cases hz : l.parentHash.isZero
    · exact .inl (Link.isGenesis_iff.mpr ⟨0, hchain.root l hl hz⟩)
    · obtain ⟨p, hp, hh, k, less, own, hps, hown, hls⟩ :=
        hchain.stands l hl (Link.isResolved_iff.mpr ⟨_, _, hs⟩) (by simpa using hz)
      obtain ⟨-, rfl⟩ : height = k + 1 ∧ work = less + own := by simpa [hs] using hls
      exact .inr ⟨p, hp, hh, k, less, hps, Nat.lt_add_of_pos_right (Work.ofBits_pos hown)⟩

theorem outweighs_computed :
    Target.expand Block.second.header.bits = .ok (0xffff * 256 ^ 30) ∧
    validate 0 7200 .second = .ok 1 ∧
    Arena.find? lateGenesis.store.store Block.second.hash = some (.resolved .second 1 1) := by
  decide +kernel

theorem outweighs_lateGenesis : Target.Denotes Block.second.header.bits (0xffff * 256 ^ 30) ∧
    (∃ work, validate 0 7200 .second = .ok work ∧
      work * (Block.second.hash.toNat + 1) ≤ 2 ^ 256) ∧
    lateGenesis.Stores (.resolved .second 1 1) ∧
    ((Link.resolved .second 1 1).isGenesis ∨ ∃ p, lateGenesis.Stores p ∧
      p.hash = (Link.resolved .second 1 1).parentHash ∧
        ∃ k less, p.status = .resolved k less ∧ less < 1) := by
  obtain ⟨htarget, hvalid, hfind⟩ := outweighs_computed
  have hopened : Opened (fun _ => True) (started {} []) := opened_started trivial (by decide)
  have hlater : Later (fun _ => True) (started {} []) lateGenesis :=
    (later_submit _ 0 .second).trans (later_submit _ 0 .first)
  obtain ⟨hbits, hblocks, hlinks⟩ := outweighs_of_reachable ⟨_, hopened, hlater⟩
  have hstores : lateGenesis.Stores (.resolved .second 1 1) :=
    stores_of_find? (l := .resolved .second 1 1) hfind
  exact ⟨((hbits _).expand _).mp htarget, ⟨1, hvalid, (hblocks 0 7200 .second 1 hvalid).2⟩,
    hstores, (hlinks _ 1 1 hstores rfl).2⟩

end Node

end BlockTree
