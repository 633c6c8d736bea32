/-
# A bounded channel

A first-in first-out queue of fixed capacity between senders and one receiver.
`received` is history: everything the receiver has taken out, oldest first.  A
channel of capacity `0` stores nothing, and a message passes from a blocked
sender to a waiting receiver in one step (`Channel.handOff`).

`Channel.sent` is what the senders have got rid of so far.  A send and a
hand-off append to it and a receive leaves it alone (`sent_send`,
`sent_handOff`, `sent_recv`), which is all that "lossless and in order" means.
-/

import Mathlib.Data.List.Basic

variable {α : Type*}

/-- A bounded queue with its history. -/
structure Channel (α : Type*) where
  capacity : ℕ
  received : List α
  queue : List α
  deriving DecidableEq

namespace Channel

/-- A new channel. -/
def bounded (capacity : ℕ) : Channel α := ⟨capacity, [], []⟩

/-- Everything sent so far, in the order it was accepted. -/
def sent (c : Channel α) : List α := c.received ++ c.queue

/-- A send would not block. -/
def HasRoom (c : Channel α) : Prop := c.queue.length < c.capacity

instance (c : Channel α) : Decidable c.HasRoom := inferInstanceAs (Decidable (_ < _))

/-- The channel after a send that found room. -/
def send (c : Channel α) (a : α) : Channel α := { c with queue := c.queue ++ [a] }

/-- The oldest message in the queue, and the channel without it. -/
def recv? (c : Channel α) : Option (α × Channel α) :=
  match c.queue with
  | [] => none
  | a :: rest => some (a, { c with received := c.received ++ [a], queue := rest })

/-- The channel after `a` passed from a blocked sender to the waiting receiver. -/
def handOff (c : Channel α) (a : α) : Channel α := { c with received := c.received ++ [a] }

@[simp] theorem sent_send (c : Channel α) (a : α) : (c.send a).sent = c.sent ++ [a] := by
  simp [send, sent]

theorem sent_handOff {c : Channel α} (h : c.queue = []) (a : α) :
    (c.handOff a).sent = c.sent ++ [a] := by
  simp [handOff, sent, h]

/-- What a receive does: the head of the queue moves to the history. -/
theorem recv?_eq_some {c c' : Channel α} {a : α} (h : c.recv? = some (a, c')) :
    c.queue = a :: c'.queue ∧ c'.received = c.received ++ [a] ∧ c'.capacity = c.capacity := by
  unfold recv? at h
  split at h
  · cases h
  · rename_i b rest hq
    obtain ⟨rfl, rfl⟩ := Prod.mk.inj (Option.some.inj h)
    exact ⟨hq, rfl, rfl⟩

theorem recv?_eq_none {c : Channel α} : c.recv? = none ↔ c.queue = [] := by
  unfold recv?
  split <;> simp [*]

theorem sent_recv {c c' : Channel α} {a : α} (h : c.recv? = some (a, c')) : c'.sent = c.sent := by
  obtain ⟨hq, hr, -⟩ := recv?_eq_some h
  simp [sent, hq, hr]

end Channel
