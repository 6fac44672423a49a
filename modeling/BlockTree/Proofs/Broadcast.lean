import BlockTree.BranchChange
import BlockTree.Channel
import Mathlib.Data.List.Nodup

/-! What a channel keeps of the events sent over it, and what a listener hears that reads
from time to time. What it has come past it heard, unless the channel had dropped it. -/

namespace BlockTree

/-- The one comes right before the other. -/
def Adjacent {α : Type} (events : List α) (e f : α) : Prop :=
  ∃ before after, events = before ++ e :: f :: after

theorem Adjacent.sublist {α : Type} {events : List α} {e f : α} (h : Adjacent events e f) :
    [e, f].Sublist events := by
  obtain ⟨before, after, rfl⟩ := h
  have hpair : [e, f].Sublist (e :: f :: after) :=
    ((List.nil_sublist after).cons_cons f).cons_cons e
  exact hpair.trans (List.sublist_append_right before _)

theorem pair_sublist_of_lt {α : Type} {events : List α} {e f : α} {i j : Nat} (hij : i < j)
    (hi : events[i]? = some e) (hj : events[j]? = some f) : [e, f].Sublist events := by
  have he : e ∈ events.take j :=
    List.mem_iff_getElem?.mpr ⟨i, by rw [List.getElem?_take_of_lt hij, hi]⟩
  have hf : f ∈ events.drop j :=
    List.mem_iff_getElem?.mpr ⟨0, by rw [List.getElem?_drop, Nat.add_zero, hj]⟩
  have hpair := (List.singleton_sublist.mpr he).append (List.singleton_sublist.mpr hf)
  rwa [List.take_append_drop] at hpair

namespace Channel

variable {α : Type} {c : Channel α} {capacity : Nat} {events : List α}

/-- Of all the events sent, the channel keeps the latest. -/
structure Carries (c : Channel α) (capacity : Nat) (events : List α) : Prop where
  capacity_eq : c.capacity = capacity
  sent_eq : c.sent = events.length
  kept_eq : c.kept = events.drop (events.length - capacity)

/-- The event that is read next: the first one not come past, or the oldest one kept. -/
def upcoming (s : Subscription) (capacity : Nat) (events : List α) : Nat :=
  max s.next (events.length - capacity)

theorem carries_ofCapacity (capacity : Nat) :
    (ofCapacity capacity : Channel α).Carries (roundUp capacity) [] :=
  ⟨rfl, rfl, List.drop_nil.symm⟩

namespace Carries

variable (h : c.Carries capacity events)

include h

theorem subscribe : c.subscribe.2.Carries capacity events :=
  ⟨h.capacity_eq, h.sent_eq, h.kept_eq⟩

theorem unsubscribe : c.unsubscribe.Carries capacity events :=
  ⟨h.capacity_eq, h.sent_eq, h.kept_eq⟩

theorem publish (event : α) : (c.publish event).Carries capacity (events ++ [event]) := by
  refine ⟨h.capacity_eq, ?_, ?_⟩
  · simp [Channel.publish, h.sent_eq]
  · have hle : events.length - capacity ≤ events.length := Nat.sub_le _ _
    simp only [Channel.publish, h.kept_eq, h.capacity_eq, ← List.drop_append_of_le_length hle,
      List.drop_drop, List.length_drop, List.length_append, List.length_singleton]
    congr 1
    omega

theorem foldl_publish (more : List α) :
    (more.foldl Channel.publish c).Carries capacity (events ++ more) := by
  induction more generalizing c events with
  | nil => simpa using h
  | cons event more ih => simpa using ih (h.publish event)

theorem oldest_eq : c.oldest = events.length - capacity := by
  simp only [oldest, h.sent_eq, h.kept_eq, List.length_drop]
  omega

theorem receive_eq (s : Subscription) : c.receive s =
    match events[upcoming s capacity events]? with
    | some event => (.event event, { s with next := upcoming s capacity events + 1 })
    | none => (if c.isOpen then .pending else .closed,
        { s with next := upcoming s capacity events }) := by
  have hplace : events.length - capacity + (max s.next (events.length - capacity) -
      (events.length - capacity)) = upcoming s capacity events := by
    rw [upcoming]
    omega
  rw [receive, h.oldest_eq, h.kept_eq, List.getElem?_drop, hplace]
  cases events[upcoming s capacity events]? <;> rfl

end Carries

end Channel

/-- One who reads now and then. Whether it waits for an event or only looks for one, it
hears of an event when it reads while there is one for it. -/
structure Listener where
  place : Subscription
  /-- How many events there were before it came. -/
  since : Nat
  heard : List BranchChange := []

namespace Listener

def read (l : Listener) (c : Channel BranchChange) : Listener :=
  match c.receive l.place with
  | (.event change, place) => { l with place := place, heard := l.heard ++ [change] }
  | (_, place) => { l with place := place }

variable {l : Listener} {c : Channel BranchChange} {capacity : Nat} {published : List BranchChange}
  {change : BranchChange}

theorem read_of_some (hc : c.Carries capacity published)
    (h : published[Channel.upcoming l.place capacity published]? = some change) :
    l.read c = { l with
      place := { l.place with next := Channel.upcoming l.place capacity published + 1 }
      heard := l.heard ++ [change] } := by
  simp only [read, hc.receive_eq, h]

theorem read_of_none (hc : c.Carries capacity published)
    (h : published[Channel.upcoming l.place capacity published]? = none) :
    l.read c = { l with
      place := { l.place with next := Channel.upcoming l.place capacity published } } := by
  simp only [read, hc.receive_eq, h]
  cases c.isOpen <;> rfl

/-- The listener heard, in their order, events that it has come past, and all of those
among them that are still kept. -/
structure Attends (l : Listener) (capacity : Nat) (published : List BranchChange) : Prop where
  since_le : l.since ≤ l.place.next
  next_le : l.place.next ≤ published.length
  heard : l.heard.Sublist ((published.take l.place.next).drop l.since)
  complete : ∀ i change, published[i]? = some change → l.since ≤ i → i < l.place.next →
    published.length ≤ i + capacity → change ∈ l.heard

theorem attends_subscribe (hc : c.Carries capacity published) :
    Attends ⟨c.subscribe.1, published.length, []⟩ capacity published := by
  have hnext : c.subscribe.1.next = published.length := hc.sent_eq
  refine ⟨Nat.le_of_eq hnext.symm, Nat.le_of_eq hnext, List.nil_sublist _, ?_⟩
  intro i change _ hsince hpast _
  exact absurd (Nat.lt_of_le_of_lt hsince hpast) (by simp [hnext])

namespace Attends

theorem publish (h : l.Attends capacity published) (change : BranchChange) :
    l.Attends capacity (published ++ [change]) := by
  have hle := h.next_le
  refine ⟨h.since_le, ?_, ?_, ?_⟩
  · rw [List.length_append]
    omega
  · rw [List.take_append_of_le_length hle]
    exact h.heard
  · intro i event hi hsince hpast hkept
    rw [List.getElem?_append_left (by omega)] at hi
    rw [List.length_append, List.length_singleton] at hkept
    exact h.complete i event hi hsince hpast (by omega)

theorem append (h : l.Attends capacity published) (more : List BranchChange) :
    l.Attends capacity (published ++ more) := by
  induction more generalizing published with
  | nil => simpa using h
  | cons change more ih => simpa using ih (h.publish change)

/-- What lies between the last event come past and the one read now is not kept any more. -/
theorem read (h : l.Attends capacity published) (hc : c.Carries capacity published) :
    (l.read c).Attends capacity published := by
  have hsince := h.since_le
  have hnext := h.next_le
  have hahead : Channel.upcoming l.place capacity published =
      max l.place.next (published.length - capacity) := rfl
  have hpast : l.heard.Sublist
      ((published.take (Channel.upcoming l.place capacity published)).drop l.since) :=
    h.heard.trans ((List.take_sublist_take_left (by omega)).drop _)
  cases hplace : published[Channel.upcoming l.place capacity published]? with
  | none =>
    have hend := List.getElem?_eq_none_iff.mp hplace
    rw [read_of_none hc hplace]
    refine ⟨by simp only; omega, by simp only; omega, hpast, ?_⟩
    intro i event hi hsince hlt hkept
    simp only at hlt
    exact h.complete i event hi hsince (by omega) hkept
  | some change =>
    obtain ⟨hlt, -⟩ := List.getElem?_eq_some_iff.mp hplace
    rw [read_of_some hc hplace]
    refine ⟨by simp only; omega, by simp only; omega, ?_, ?_⟩
    · simp only [List.take_add_one, hplace, Option.toList_some]
      rw [List.drop_append_of_le_length (by rw [List.length_take]; omega)]
      exact hpast.append (List.Sublist.refl _)
    · intro i event hi hsince hlt hkept
      simp only at hlt
      by_cases hnow : i = Channel.upcoming l.place capacity published
      · rw [hnow, hplace] at hi
        simp [Option.some.inj hi]
      · exact List.mem_append_left _ (h.complete i event hi hsince (by omega) hkept)

theorem heard_since (h : l.Attends capacity published) :
    l.heard.Sublist (published.drop l.since) :=
  h.heard.trans ((List.take_sublist _ _).drop _)

/-- An event that is kept and not yet heard is never passed over: the listener hears of it
now, or of one before it. -/
theorem exists_read (h : l.Attends capacity published) (hc : c.Carries capacity published)
    (hn : published.Nodup) (hsince : change ∈ published.drop l.since) (hkept : change ∈ c.kept)
    (hnew : change ∉ l.heard) : ∃ next, (l.read c).heard = l.heard ++ [next] ∧
      (next = change ∨ [next, change].Sublist published) := by
  rw [hc.kept_eq] at hkept
  obtain ⟨j, hj⟩ := List.mem_iff_getElem?.mp hkept
  obtain ⟨k, hk⟩ := List.mem_iff_getElem?.mp hsince
  rw [List.getElem?_drop] at hj hk
  obtain ⟨hlt, -⟩ := List.getElem?_eq_some_iff.mp hj
  have hsame : published.length - capacity + j = l.since + k :=
    (List.getElem?_inj hlt hn).mp (hj.trans hk.symm)
  -- had the listener come past it, it would have heard it
  have hahead : l.place.next ≤ published.length - capacity + j := by
    by_contra hpast
    exact hnew (h.complete _ _ hj (by omega) (by omega) (by omega))
  have hle : Channel.upcoming l.place capacity published ≤ published.length - capacity + j :=
    Nat.max_le.mpr ⟨hahead, Nat.le_add_right _ _⟩
  have hplace : Channel.upcoming l.place capacity published < published.length := by omega
  obtain ⟨next, hnow⟩ : ∃ next, published[Channel.upcoming l.place capacity published]? =
      some next := ⟨_, List.getElem?_eq_getElem hplace⟩
  refine ⟨next, by rw [read_of_some hc hnow], ?_⟩
  rcases Nat.eq_or_lt_of_le hle with heq | hlater
  · left
    rw [heq, hj] at hnow
    exact (Option.some.inj hnow).symm
  · right
    exact pair_sublist_of_lt hlater hnow hj

end Attends

end Listener

end BlockTree
