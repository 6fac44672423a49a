import BlockTree.Pool
import BlockTree.Proofs.Contract

/-! What the calls that change a pool come to. Each of them checks first and writes then, so
that it does all it has to do or leaves the pool as it was. -/

namespace BlockTree.Pool

variable {α β : Type} {p : Pool} {e : Error}

/-- The pool after a link came in that is not stored yet, with the pointers still as they
were. -/
def push (p : Pool) (stored : Link) : Pool :=
  { p with
    links := p.links.insert stored.hash.bytes stored
    children := p.children.insert stored.parentHash.bytes
      (p.childHashes stored.parentHash ++ [stored.hash])
    nextSeq := p.nextSeq + 1 }

def insert (p : Pool) (link : Link) : Except Error (Link × Pool) := do
  if (p.find? link.hash).isSome then
    throw (.duplicateLink link.hash)
  p.checkGenesis link
  let stored := link.withSeq p.nextSeq
  return (stored, (p.push stored).noticeResolved stored)

def replace (p : Pool) (updated : Link) : Pool :=
  (p.put updated).noticeResolved updated

def update (p : Pool) (link : Link) : Except Error (Unit × Pool) := do
  match ← p.planUpdate link with
  | none => return ((), p)
  | some updated => return ((), p.replace updated)

def insertAndPromote (p : Pool) (link : Link) (promoted : List Link) :
    Except Error (Link × Pool) := do
  let planned ← promoted.mapM p.planUpdate
  let (stored, filed) ← p.insert link
  return (stored, (planned.filterMap id).foldl replace filed)

def removeOrphan (p : Pool) (hash : Hash) : Except Error (Link × Pool) :=
  match p.find? hash with
  | none => .error (.storage (.missing hash))
  | some link =>
    if link.isResolved then .error (.storage (.notOrphan hash))
    else
      .ok (link, { p with
        links := p.links.erase hash.bytes
        children := p.forgetChild link.parentHash hash })

/-- Runs a change that happens whole or not at all. -/
def attempt (change : Pool → Except Error (α × Pool)) : StoreM Pool α := fun p =>
  match change p with
  | .ok (value, changed) => .ok value changed
  | .error e => .error e p

/-- Runs a check, which writes nothing. -/
def check (test : Pool → Except Error α) : StoreM Pool α :=
  attempt fun p => (test p).map fun v => (v, p)

/-- What comes after a check alone starts from the pool as it was. -/
theorem check_bind (test : Pool → Except Error α) (change : α → Pool → Except Error (β × Pool)) :
    (check test >>= fun v => attempt (change v)) = attempt fun p => test p >>= (change · p) := by
  funext p
  simp only [bind, EStateM.bind, check, attempt]
  cases test p with
  | ok v => rfl
  | error e => rfl

theorem check_bind_check (test : Pool → Except Error α) (next : α → Pool → Except Error β) :
    (check test >>= fun v => check (next v)) = check fun p => test p >>= (next · p) := by
  refine (check_bind test fun v p => (next v p).map fun w => (w, p)).trans (congrArg attempt ?_)
  funext p
  change (test p >>= fun v => (next v p).map fun w => (w, p)) = (test p >>= (next · p)).map _
  cases test p with
  | ok v => rfl
  | error e => rfl

/-- Writes that cannot fail may come after a change. -/
theorem attempt_bind (change : Pool → Except Error (α × Pool)) {act : α → StoreM Pool β}
    (value : α → β) (writes : α → Pool → Pool)
    (h : ∀ v q, act v q = .ok (value v) (writes v q)) :
    attempt change >>= act = attempt fun p => do
      let (v, q) ← change p
      return (value v, writes v q) := by
  funext p
  simp only [bind, EStateM.bind, attempt]
  cases change p with
  | ok r => exact h r.1 r.2
  | error e => rfl

theorem plan_eq (link : Link) : plan link = check fun p => p.planUpdate link := by
  funext p
  change (MonadExcept.ofExcept (p.planUpdate link) : StoreM Pool (Option Link)) p = _
  cases hp : p.planUpdate link with
  | ok v => simp only [check, attempt, hp]; rfl
  | error e => simp only [check, attempt, hp]; rfl

theorem mapM_plan (links : List Link) :
    links.mapM plan = check fun p => links.mapM p.planUpdate := by
  induction links with
  | nil => rfl
  | cons link links ih =>
    have hrest (planned : Option Link) : (links.mapM plan >>= fun rest => pure (planned :: rest)) =
        check fun p => links.mapM p.planUpdate >>= fun rest => pure (planned :: rest) := by
      rw [ih]
      exact check_bind_check _ fun rest _ => pure (planned :: rest)
    rw [List.mapM_cons, plan_eq, funext hrest, check_bind_check]
    simp only [List.mapM_cons]

theorem forM_write (links : List Link) :
    links.forM write p = .ok () (links.foldl replace p) := by
  induction links generalizing p with
  | nil => rfl
  | cons link links ih => exact ih

theorem addLink_eq (link : Link) : addLink link = attempt fun p => p.insert link := by
  funext p
  simp only [addLink, attempt, insert, bind, EStateM.bind, get_apply]
  cases p.find? link.hash with
  | some known => rfl
  | none =>
    cases hc : p.checkGenesis link with
    | error e =>
      simp only [Option.isSome_none, Bool.false_eq_true, if_false, EStateM.bind, get_apply, hc]
      rfl
    | ok _ =>
      simp only [Option.isSome_none, Bool.false_eq_true, if_false, EStateM.bind, get_apply, hc]
      rfl

theorem updateLink_eq (link : Link) : updateLink link = attempt fun p => p.update link := by
  funext p
  simp only [updateLink, plan_eq, check, attempt, update, bind, EStateM.bind]
  cases p.planUpdate link with
  | error e => rfl
  | ok planned =>
    cases planned with
    | none => rfl
    | some updated => rfl

theorem addAndPromote_eq (link : Link) (promoted : List Link) :
    addAndPromote link promoted = attempt fun p => p.insertAndPromote link promoted := by
  have hwrites (planned : List (Option Link)) :
      (addLink link >>= fun stored => (planned.filterMap id).forM write >>= fun _ => pure stored) =
        attempt fun p => do
          let (stored, filed) ← p.insert link
          return (stored, (planned.filterMap id).foldl replace filed) := by
    rw [addLink_eq]
    refine attempt_bind _ id (fun _ p => (planned.filterMap id).foldl replace p) fun stored p => ?_
    simp only [bind, EStateM.bind, forM_write]
    rfl
  rw [addAndPromote, mapM_plan, funext hwrites]
  exact check_bind _ _

theorem takeOrphan_eq (hash : Hash) : takeOrphan hash = attempt fun p => p.removeOrphan hash := by
  funext p
  simp only [takeOrphan, attempt, removeOrphan, bind, EStateM.bind, get_apply]
  cases p.find? hash with
  | none => rfl
  | some link =>
    by_cases hr : link.isResolved
    · simp only [hr, if_true]
      rfl
    · simp only [hr]
      rfl

end BlockTree.Pool
