import BlockTree.Proofs.Observation
import BlockTree.Proofs.Trails

/-! Two stores behind one interface. Asked the same, a shelf and an arena answer the same,
as long as the records of no batch get in each other's way. -/

namespace BlockTree

inductive ErrorKind where
  | validation
  | duplicateLink
  | missing
  | notOrphan
  | codec
  | backend
  | notFound
  | invariant
  | config
deriving DecidableEq

def Error.kind : Error → ErrorKind
  | validation _ => .validation
  | duplicateLink _ => .duplicateLink
  | storage (.missing _) => .missing
  | storage (.notOrphan _) => .notOrphan
  | storage (.codec _) => .codec
  | storage (.backend _) => .backend
  | notFound _ => .notFound
  | invariant _ => .invariant
  | config _ => .config

/-- The same value, or errors of one kind. -/
def SameAnswer {α : Type} (r q : Except Error α) : Prop :=
  r.mapError Error.kind = q.mapError Error.kind

/-- A call, or one of the walks that every store offers. -/
inductive Demand where
  | call {α : Type} (call : Call α)
  | parentOf (link : Link)
  | claimedLink (link : Link) (input : TxInput)
  | claimerLink (link : Link) (input : TxInput)

namespace Demand

abbrev Answer : Demand → Type
  | @call α _ => α
  | _ => Option Link

section Stores

variable {σ : Type} [Store σ]

def run : (r : Demand) → StoreM σ r.Answer
  | call c => ask c
  | parentOf link => BlockTree.parentOf link
  | claimedLink link input => BlockTree.claimedLink link input
  | claimerLink link input => BlockTree.claimerLink link input

def reply (s : σ) (r : Demand) : Except Error r.Answer :=
  said (r.run s)

def after (s : σ) (r : Demand) : σ :=
  left (r.run s)

end Stores

def runInTurn : (r : Demand) → StoreM Arena r.Answer
  | call c => Arena.answerInTurn c
  | parentOf link => BlockTree.parentOf link
  | claimedLink link input => BlockTree.claimedLink link input
  | claimerLink link input => BlockTree.claimerLink link input

def links : Demand → List Link
  | call c => c.links
  | _ => []

def onlyReads : Demand → Bool
  | call c => c.onlyReads
  | _ => true

/-- It makes no difference whether a batch is made at once or one record after another. -/
structure InOrder (a : Arena) (r : Demand) : Prop where
  said_same : SameAnswer (r.reply a) (said (r.runInTurn a))
  left_eq : r.after a = left (r.runInTurn a)

def Tidy (a : Arena) : Demand → Prop
  | call (.addAndPromote link promoted) => a.Tidy link promoted
  | _ => True

end Demand

/-- Asked one after another, both stores give the same answers. -/
def Agree {σ τ : Type} [Store σ] [Store τ] (s : σ) (t : τ) : List Demand → Prop
  | [] => True
  | r :: rs => SameAnswer (r.reply s) (r.reply t) ∧ Agree (r.after s) (r.after t) rs

/-- What is asked has the property when its turn comes. -/
def Along (P : Arena → Demand → Prop) (a : Arena) : List Demand → Prop
  | [] => True
  | r :: rs => P a r ∧ Along P (r.after a) rs

/-- Links of blocks of which no two have one hash and different headers, and that can be
written and counted. -/
structure Storable (links : List Link) : Prop where
  hash_eq : ∀ l ∈ links, l.hash = l.block.hash
  header_eq : ∀ l ∈ links, ∀ m ∈ links, l.hash = m.hash → l.block.header = m.block.header
  writable : ∀ l ∈ links, l.Writable
  count : links.length < 2 ^ 64

variable {s : Shelf} {a : Arena} {r : Demand} {rs : List Demand} {parent : Hash → Hash}

theorem SameAnswer.rfl {α : Type} {r : Except Error α} : SameAnswer r r :=
  Eq.refl _

theorem Agree.symm {σ τ : Type} [Store σ] [Store τ] {s : σ} {t : τ} (h : Agree s t rs) :
    Agree t s rs := by
  induction rs generalizing s t with
  | nil => trivial
  | cons r rs ih => exact ⟨Eq.symm h.1, ih h.2⟩

theorem Agree.trans {σ τ υ : Type} [Store σ] [Store τ] [Store υ] {s : σ} {t : τ} {u : υ}
    (h : Agree s t rs) (h' : Agree t u rs) : Agree s u rs := by
  induction rs generalizing s t u with
  | nil => trivial
  | cons r rs ih => exact ⟨Eq.trans h.1 h'.1, ih h.2 h'.2⟩

theorem Storable.mono {links fewer : List Link} (h : Storable links)
    (hsub : fewer.Sublist links) : Storable fewer where
  hash_eq l hl := h.hash_eq l (hsub.subset hl)
  header_eq l hl m hm := h.header_eq l (hsub.subset hl) m (hsub.subset hm)
  writable l hl := h.writable l (hsub.subset hl)
  count := Nat.lt_of_le_of_lt hsub.length_le h.count

/-- Links that were made of blocks with different hashes. -/
theorem storable_of_nodup {links : List Link} {blocks : List Block}
    (hnodup : (blocks.map Block.hash).Nodup)
    (hmade : ∀ l ∈ links, l.Writable ∧ ∃ block ∈ blocks, ∃ status, l = .make block status)
    (hcount : links.length < 2 ^ 64) : Storable links := by
  refine ⟨fun l hl => ?_, fun l hl m hm hh => ?_, fun l hl => (hmade l hl).1, hcount⟩
  · obtain ⟨-, block, -, status, rfl⟩ := hmade l hl
    rfl
  · obtain ⟨-, block, hblock, status, rfl⟩ := hmade l hl
    obtain ⟨-, block', hblock', status', rfl⟩ := hmade m hm
    exact congrArg Block.header (List.inj_on_of_nodup_map hnodup hblock hblock' hh)

theorem Storable.exists_suits {links : List Link} (h : Storable links) :
    ∃ parent, ∀ l ∈ links, l.Suits parent := by
  refine ⟨fun hash => ((links.find? fun l => l.hash = hash).map Link.parentHash).getD hash,
    fun l hl => ⟨h.hash_eq l hl, ?_, fun n hn => ?_⟩⟩
  · cases hf : links.find? fun m => m.hash = l.hash with
    | none => exact absurd (decide_eq_true rfl) (List.find?_eq_none.mp hf l hl)
    | some m =>
      have hheader := h.header_eq m (List.mem_of_find?_eq_some hf) l hl
        (by simpa using List.find?_some hf)
      exact congrArg Header.prevHash hheader.symm
  · exact (h.writable l hl).withSeq hn

namespace Shelf

theorem Echoes.said_eq {α : Type} {r : EStateM.Result Error Shelf α}
    {q : EStateM.Result Error Arena α} (h : Echoes r q) :
    said r = said q ∧ (left r).Holds (left q) := by
  cases r with
  | ok v t =>
    cases q with
    | ok w b => exact ⟨congrArg Except.ok h.1, h.2⟩
    | error f b => exact h.elim
  | error e t =>
    cases q with
    | ok w b => exact h.elim
    | error f b => exact ⟨congrArg Except.error h.1, h.2⟩

end Shelf

namespace Demand

theorem echoes (h : s.Holds a) (hk : a.Kept parent) (hsuits : ∀ l ∈ r.links, l.Suits parent)
    (hlt : r.links ≠ [] → a.nextSeq + 1 < 2 ^ 64) : Shelf.Echoes (r.run s) (r.runInTurn a) := by
  cases r with
  | call c => exact h.answer hk hsuits hlt
  | parentOf link => exact h.parentOf link
  | claimedLink link input => exact h.firstOnBranch _ link
  | claimerLink link input => exact h.firstOnBranch _ link

theorem follows (hk : a.Kept parent) (hsuits : ∀ l ∈ r.links, l.Suits parent) :
    a.Follows parent r.links.length (left (r.runInTurn a)) := by
  have hsame {b : Arena} (he : b = a) : a.Follows parent 0 b :=
    ⟨he ▸ hk, Nat.le_of_eq (he ▸ rfl)⟩
  cases r with
  | call c => exact hk.answerInTurn hsuits
  | parentOf link => exact hsame Arena.left_parentOf
  | claimedLink link input => exact hsame Arena.left_firstWithin
  | claimerLink link input => exact hsame Arena.left_firstWithin

/-- Only a batch can be made in more than one way. -/
theorem inOrder_of_batch
    (h : ∀ link promoted, r = call (.addAndPromote link promoted) → r.InOrder a) :
    r.InOrder a := by
  cases r with
  | call c =>
    cases c with
    | addAndPromote link promoted => exact h link promoted rfl
    | _ => exact ⟨.rfl, rfl⟩
  | _ => exact ⟨.rfl, rfl⟩

theorem run_batch {link : Link} {promoted : List Link} :
    run (call (.addAndPromote link promoted)) a =
      Arena.attempt (fun a => a.insertAndPromote link promoted) a :=
  rfl

theorem runInTurn_batch {link : Link} {promoted : List Link} :
    runInTurn (call (.addAndPromote link promoted)) a =
      Arena.attempt (fun a => (a.insertInTurn link promoted).map fun p => (p.1.1, p.2)) a :=
  rfl

theorem Tidy.inOrder (h : r.Tidy a) : r.InOrder a := by
  refine inOrder_of_batch fun link promoted hr => ?_
  subst hr
  have hbatch : a.insertAndPromote link promoted =
      (a.insertInTurn link promoted).map fun p => (p.1.1, p.2) := Arena.Tidy.eq_insertInTurn h
  have hsame : run (call (.addAndPromote link promoted)) a =
      runInTurn (call (.addAndPromote link promoted)) a := by
    simp only [run_batch, runInTurn_batch, Arena.attempt, hbatch]
  exact ⟨congrArg (fun q => (said q).mapError Error.kind) hsame, congrArg left hsame⟩

theorem links_of_onlyReads (h : r.onlyReads) : r.links = [] := by
  cases r with
  | call c =>
    cases c with
    | addLink => cases h
    | updateLink => cases h
    | addAndPromote => cases h
    | _ => rfl
  | _ => rfl

theorem inOrder_of_onlyReads (h : r.onlyReads) : r.InOrder a := by
  refine inOrder_of_batch fun link promoted hr => ?_
  rw [hr] at h
  cases h

end Demand

theorem Along.mono {P Q : Arena → Demand → Prop} (hPQ : ∀ a r, P a r → Q a r)
    (h : Along P a rs) : Along Q a rs := by
  induction rs generalizing a with
  | nil => trivial
  | cons r rs ih => exact ⟨hPQ a r h.1, ih h.2⟩

theorem along_of_onlyReads (h : ∀ r ∈ rs, r.onlyReads) : Along Demand.InOrder a rs := by
  induction rs generalizing a with
  | nil => trivial
  | cons r rs ih =>
    exact ⟨Demand.inOrder_of_onlyReads (h r List.mem_cons_self),
      ih fun q hq => h q (List.mem_cons_of_mem _ hq)⟩

/-- Reads come in between without harm. -/
theorem Along.append_reads {before reads : List Demand} (h : Along Demand.InOrder a rs)
    (hbefore : before <+: rs) (hreads : ∀ q ∈ reads, q.onlyReads) :
    Along Demand.InOrder a (before ++ reads) := by
  induction before generalizing a rs with
  | nil => exact along_of_onlyReads hreads
  | cons r before ih =>
    obtain ⟨rest, rfl⟩ := hbefore
    exact ⟨h.1, ih h.2 (List.prefix_append _ _)⟩

/-- A shelf and an arena of the same links, with room for more of them. -/
structure Paired (parent : Hash → Hash) (s : Shelf) (a : Arena) (more : List Link) : Prop where
  holds : s.Holds a
  kept : a.Kept parent
  suits : ∀ l ∈ more, l.Suits parent
  count : a.nextSeq + more.length < 2 ^ 64

namespace Paired

variable {more : List Link}

theorem empty (h : Storable more) : ∃ parent, Paired parent {} {} more := by
  obtain ⟨parent, hsuits⟩ := h.exists_suits
  exact ⟨parent, ⟨Trees.hold_empty, by simp⟩, Arena.kept_empty, hsuits, by simpa using h.count⟩

theorem mono {fewer : List Link} (h : Paired parent s a more) (hsub : fewer.Sublist more) :
    Paired parent s a fewer :=
  ⟨h.holds, h.kept, fun l hl => h.suits l (hsub.subset hl),
    Nat.lt_of_le_of_lt (Nat.add_le_add_left hsub.length_le _) h.count⟩

theorem echoes (h : Paired parent s a (r.links ++ more)) :
    Shelf.Echoes (r.run s) (r.runInTurn a) := by
  refine Demand.echoes h.holds h.kept (fun l hl => h.suits l (List.mem_append_left _ hl)) ?_
  intro hne
  have hpos := List.length_pos_iff.mpr hne
  have hcount := h.count
  rw [List.length_append] at hcount
  omega

/-- A shelf does what an arena does that makes batches one record after another. -/
theorem inTurn (h : Paired parent s a (r.links ++ more)) :
    r.reply s = said (r.runInTurn a) ∧ Paired parent (r.after s) (left (r.runInTurn a)) more := by
  obtain ⟨hsaid, hholds⟩ := h.echoes.said_eq
  have hfollows := Demand.follows h.kept fun l hl => h.suits l (List.mem_append_left _ hl)
  refine ⟨hsaid, hholds, hfollows.kept, fun l hl => h.suits l (List.mem_append_right _ hl), ?_⟩
  have hcount := h.count
  have hle := hfollows.nextSeq_le
  rw [List.length_append] at hcount
  omega

theorem step (h : Paired parent s a (r.links ++ more)) (hin : r.InOrder a) :
    SameAnswer (r.reply s) (r.reply a) ∧ Paired parent (r.after s) (r.after a) more := by
  obtain ⟨hsaid, hnext⟩ := h.inTurn
  refine ⟨(congrArg (Except.mapError Error.kind) hsaid).trans hin.said_same.symm, ?_⟩
  rw [hin.left_eq]
  exact hnext

theorem agree (h : Paired parent s a (rs.flatMap Demand.links))
    (hin : Along Demand.InOrder a rs) : Agree s a rs := by
  induction rs generalizing s a with
  | nil => trivial
  | cons r rs ih =>
    obtain ⟨hsame, hnext⟩ := h.step hin.1
    exact ⟨hsame, ih hnext hin.2⟩

end Paired

end BlockTree
