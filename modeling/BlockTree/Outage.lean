import BlockTree.Store

/-! Stores whose calls fail at chosen moments. A call that fails this way never
reaches the store behind, so it has no effect there. -/

namespace BlockTree

/-- Which of the coming calls to one method fail. -/
structure Outage where
  method : Method
  fails : Nat → Bool
  calls : Nat := 0

/-- Lets `skip` calls pass and stops the `count` calls after them. -/
def Outage.window (method : Method) (skip count : Nat) : Outage where
  method := method
  fails n := decide (skip ≤ n ∧ n < skip + count)

structure Unreliable (σ : Type) where
  store : σ
  outages : List Outage := []
deriving Inhabited

namespace Unreliable

/-- Replaces what was planned for the method before. -/
def plan (u : Unreliable σ) (outage : Outage) : Unreliable σ :=
  { u with outages := outage :: u.outages.filter fun o => o.method ≠ outage.method }

def stops (u : Unreliable σ) (method : Method) : Bool :=
  u.outages.any fun o => o.method == method && o.fails o.calls

def count (u : Unreliable σ) (method : Method) : Unreliable σ :=
  { u with outages := u.outages.map fun o =>
      if o.method = method then { o with calls := o.calls + 1 } else o }

def failure : Error :=
  .storage (.backend "disk hiccup")

def behind (act : StoreM σ α) : StoreM (Unreliable σ) α := fun u =>
  match act u.store with
  | .ok value store => .ok value { u with store := store }
  | .error e store => .error e { u with store := store }

def answer [Store σ] (call : Call α) : StoreM (Unreliable σ) α := fun u =>
  if u.stops call.method then .error failure (u.count call.method)
  else behind (Store.answer call) (u.count call.method)

instance [Store σ] : Store (Unreliable σ) where
  answer := answer
  reach u := Store.reach u.store

end Unreliable

end BlockTree
