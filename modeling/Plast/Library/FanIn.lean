/-
# Chunks that arrive one after the other

Several chunks of messages are sent in order, but the messages of one chunk may
overtake each other: `Arrives chunks xs` says that `xs` is what a receiver may
then see.  It is one list alone exactly if no chunk has two different messages
(`Arrives.unique_iff`).

`OnTrack all sent pending chunks` is the invariant of such a transfer: whatever
is `sent` so far, followed by the `pending` messages of the current chunk in any
order and by the later `chunks`, is an arrival of `all` of them.  Sending any pending
message and starting the next chunk keep it.
-/

import Mathlib.Data.List.Forall2
import Mathlib.Data.List.Perm.Basic

namespace FanIn

variable {α : Type*}

/-- The messages of the chunks, chunk by chunk, those of one chunk in any order. -/
def Arrives (chunks : List (List α)) (xs : List α) : Prop :=
  ∃ cs : List (List α), List.Forall₂ List.Perm cs chunks ∧ xs = cs.flatten

theorem arrives_nil : Arrives ([] : List (List α)) [] := ⟨[], List.Forall₂.nil, rfl⟩

theorem Arrives.cons {chunk c xs : List α} {chunks : List (List α)} (h : Arrives chunks xs)
    (hc : c.Perm chunk) : Arrives (chunk :: chunks) (c ++ xs) := by
  obtain ⟨cs, hcs, rfl⟩ := h
  exact ⟨c :: cs, List.Forall₂.cons hc hcs, rfl⟩

theorem Arrives.eq_nil {xs : List α} (h : Arrives [] xs) : xs = [] := by
  obtain ⟨cs, hcs, rfl⟩ := h
  rcases hcs with _ | _
  rfl

/-- The messages of the first chunk arrive first. -/
theorem Arrives.of_cons {chunk xs : List α} {chunks : List (List α)}
    (h : Arrives (chunk :: chunks) xs) :
    ∃ c ys, c.Perm chunk ∧ Arrives chunks ys ∧ xs = c ++ ys := by
  obtain ⟨cs, hcs, rfl⟩ := h
  rcases hcs with _ | ⟨hc, hcs⟩
  exact ⟨_, _, hc, ⟨_, hcs, rfl⟩, rfl⟩

/-- Nothing else arrives. -/
theorem Arrives.perm {xs : List α} {chunks : List (List α)} (h : Arrives chunks xs) :
    xs.Perm chunks.flatten := by
  induction chunks generalizing xs with
  | nil => exact h.eq_nil ▸ List.Perm.refl _
  | cons chunk chunks ih =>
    obtain ⟨c, ys, hc, hys, rfl⟩ := h.of_cons
    exact hc.append (ih hys)

theorem exists_arrives (chunks : List (List α)) : ∃ xs, Arrives chunks xs :=
  ⟨_, chunks, List.forall₂_same.2 fun _ _ => List.Perm.refl _, rfl⟩

/-- A list has one order alone exactly if its members are all the same. -/
theorem perm_unique_iff {xs : List α} :
    (∀ ys, ys.Perm xs → ys = xs) ↔ ∀ x ∈ xs, ∀ y ∈ xs, x = y := by
  constructor
  · intro h x hx y hy
    obtain ⟨front, back, rfl⟩ := List.append_of_mem hx
    have hfront : x :: (front ++ back) = front ++ x :: back := h _ List.perm_middle.symm
    have hrest : y ∈ x :: (front ++ back) := hfront ▸ hy
    rcases List.mem_cons.1 hrest with rfl | hmem
    · rfl
    · obtain ⟨front', back', hsplit⟩ := List.append_of_mem hmem
      have hswap : y :: x :: (front' ++ back') = front ++ x :: back := h _ (by
        rw [← hfront, hsplit]
        exact (List.Perm.swap x y _).trans (List.perm_middle.symm.cons x))
      exact (List.cons.inj (hfront.trans hswap.symm)).1
  · intro h ys hperm
    rcases xs with _ | ⟨x, xs⟩
    · exact hperm.eq_nil
    · have hall : ∀ y ∈ x :: xs, y = x := fun y hy => h y hy x List.mem_cons_self
      rw [List.eq_replicate_of_mem hall, List.eq_replicate_of_mem fun y hy =>
        hall y (hperm.subset hy), hperm.length_eq]

/-- One list alone can arrive exactly if no chunk has two different messages. -/
theorem Arrives.unique_iff {chunks : List (List α)} :
    (∀ xs ys, Arrives chunks xs → Arrives chunks ys → xs = ys) ↔
      ∀ chunk ∈ chunks, ∀ x ∈ chunk, ∀ y ∈ chunk, x = y := by
  induction chunks with
  | nil =>
    refine iff_of_true (fun xs ys hxs hys => hxs.eq_nil.trans hys.eq_nil.symm) ?_
    exact fun chunk hchunk => absurd hchunk List.not_mem_nil
  | cons chunk chunks ih =>
    rw [List.forall_mem_cons, ← ih, ← perm_unique_iff]
    constructor
    · intro h
      obtain ⟨zs, hzs⟩ := exists_arrives chunks
      constructor
      · intro c hc
        exact List.append_cancel_right (h _ _ (hzs.cons hc) (hzs.cons (List.Perm.refl chunk)))
      · intro xs ys hxs hys
        exact List.append_cancel_left (h _ _ (hxs.cons (List.Perm.refl chunk))
          (hys.cons (List.Perm.refl chunk)))
    · rintro ⟨hchunk, hrest⟩ xs ys hxs hys
      obtain ⟨c, xs', hc, hxs', rfl⟩ := hxs.of_cons
      obtain ⟨c', ys', hc', hys', rfl⟩ := hys.of_cons
      rw [hchunk c hc, hchunk c' hc', hrest xs' ys' hxs' hys']

/-- What is sent can be completed to an arrival of all chunks. -/
def OnTrack (all : List (List α)) (sent pending : List α) (chunks : List (List α)) : Prop :=
  ∀ c xs, c.Perm pending → Arrives chunks xs → Arrives all (sent ++ c ++ xs)

namespace OnTrack

variable {all chunks : List (List α)} {sent pending : List α}

theorem start (all : List (List α)) : OnTrack all [] [] all := by
  intro c xs hc hxs
  obtain rfl := hc.eq_nil
  exact hxs

/-- The order of the pending messages does not matter. -/
theorem of_perm {pending' : List α} (h : OnTrack all sent pending chunks)
    (hp : pending'.Perm pending) : OnTrack all sent pending' chunks :=
  fun c xs hc hxs => h c xs (hc.trans hp) hxs

/-- With nothing pending the next chunk may start. -/
theorem next {chunk : List α} (h : OnTrack all sent [] (chunk :: chunks)) :
    OnTrack all sent chunk chunks := by
  intro c xs hc hxs
  have := h [] (c ++ xs) (List.Perm.refl _) (hxs.cons hc)
  rwa [List.append_nil, ← List.append_assoc] at this

/-- Any pending message may be sent. -/
theorem send {pending' : List α} {x : α} (h : OnTrack all sent pending chunks)
    (hp : pending.Perm (x :: pending')) : OnTrack all (sent ++ [x]) pending' chunks := by
  intro c xs hc hxs
  have := h (x :: c) xs ((hc.cons x).trans hp.symm) hxs
  rwa [List.append_assoc sent, List.singleton_append]

/-- With nothing left, what was sent is an arrival. -/
theorem arrives (h : OnTrack all sent [] []) : Arrives all sent := by
  have := h [] [] (List.Perm.refl _) arrives_nil
  rwa [List.append_nil, List.append_nil] at this

end OnTrack

end FanIn
