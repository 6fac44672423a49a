import BlockTree.Power

/-! A channel that hands every event to every listener. It keeps the latest events
only, and a listener that fell behind goes on with the oldest one kept. -/

namespace BlockTree

structure Channel (α : Type) where
  /-- How many events are kept: a power of two. -/
  capacity : Nat
  /-- How many events there ever were. -/
  sent : Nat := 0
  /-- The latest events, the newest last. -/
  kept : List α := []
  listeners : Nat := 0
  nextId : Nat := 1
  isOpen : Bool := true

/-- A listener: its number and the event it reads next. -/
structure Subscription where
  id : Nat
  next : Nat
deriving DecidableEq, Inhabited

inductive Receipt (α : Type) where
  | event (value : α)
  | pending
  | closed

namespace Channel

variable {α : Type}

def roundUp (n : Nat) : Nat :=
  if n ≤ 1 then 1 else 2 ^ (Nat.log2 (n - 1) + 1)

def ofCapacity (capacity : Nat) : Channel α where
  capacity := roundUp capacity

instance : Inhabited (Channel α) := ⟨ofCapacity 1⟩

def publish (c : Channel α) (event : α) : Channel α :=
  let kept := c.kept ++ [event]
  { c with sent := c.sent + 1, kept := kept.drop (kept.length - c.capacity) }

def subscribe (c : Channel α) : Subscription × Channel α :=
  (⟨c.nextId, c.sent⟩, { c with nextId := c.nextId + 1, listeners := c.listeners + 1 })

def unsubscribe (c : Channel α) : Channel α :=
  { c with listeners := c.listeners - 1 }

def close (c : Channel α) : Channel α :=
  { c with isOpen := false }

def oldest (c : Channel α) : Nat :=
  c.sent - c.kept.length

def receive (c : Channel α) (s : Subscription) : Receipt α × Subscription :=
  let place := max s.next c.oldest
  match c.kept[place - c.oldest]? with
  | some event => (.event event, { s with next := place + 1 })
  | none => (if c.isOpen then .pending else .closed, { s with next := place })

end Channel

end BlockTree
