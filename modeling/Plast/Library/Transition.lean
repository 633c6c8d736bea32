/-
# Interleaved runs

A system of threads is a partial step function `step : ι → σ → Option σ`: `step
i s` is the state after thread `i` moves, or `none` when that thread is blocked
or has finished.  `Fires` forgets which thread moved, and `Reaches` is any finite
interleaving.

A safety property is an invariant (`Reaches.invariant`).  `Completes` is the
liveness counterpart for systems that are meant to stop: every interleaving is
finite, and none stops before a final state.  A rank that every step
lowers and a progress lemma give it (`Completes.of_rank`, `Completes.of_measure`), a
part of the steps inherits it if it does not stop on the way (`Completes.of_part`), and
a system that completes does reach a final state (`Completes.exists_final`).

A system that carries history along has the runs of the system that does not
(`reaches_view_iff`).
-/

import Mathlib.Data.List.Basic
import Mathlib.Logic.Relation

namespace Transition

variable {ι σ : Type*} {step : ι → σ → Option σ} {final : σ → Prop}

/-- Some thread moves from `s` to `t`. -/
def Fires (step : ι → σ → Option σ) (s t : σ) : Prop := ∃ i, step i s = some t

/-- Some interleaving leads from `s` to `t`. -/
abbrev Reaches (step : ι → σ → Option σ) : σ → σ → Prop := Relation.ReflTransGen (Fires step)

/-- The invariant rule: what holds at the start and is kept by every step holds
in every reachable state. -/
theorem Reaches.invariant {I : σ → Prop} {s t : σ} (h : Reaches step s t)
    (hstep : ∀ i s t, I s → step i s = some t → I t) (h₀ : I s) : I t := by
  induction h with
  | refl => exact h₀
  | tail _ hfire ih =>
    obtain ⟨i, hi⟩ := hfire
    exact hstep i _ _ ih hi

/-- The runs of a part of the threads are runs of the system. -/
theorem Reaches.of_part {κ : Type*} {part : κ → σ → Option σ} {s t : σ} (h : Reaches part s t)
    (hpart : ∀ k s t, part k s = some t → ∃ i, step i s = some t) : Reaches step s t := by
  induction h with
  | refl => exact Relation.ReflTransGen.refl
  | tail _ hfire ih =>
    obtain ⟨k, hk⟩ := hfire
    exact ih.tail (hpart k _ _ hk)

section History

variable {τ : Type*} {traced : ι → τ → Option τ} {view : τ → σ}

/-- If every step of the traced system is, once the history is forgotten, the step of
the plain one, then so is every interleaving; and no interleaving is lost. -/
theorem reaches_view_iff (hview : ∀ i t, (traced i t).map view = step i (view t)) {t : τ} {s : σ} :
    Reaches step (view t) s ↔ ∃ u, Reaches traced t u ∧ view u = s := by
  constructor
  · intro h
    induction h with
    | refl => exact ⟨t, Relation.ReflTransGen.refl, rfl⟩
    | tail _ hfire ih =>
      obtain ⟨u, hu, rfl⟩ := ih
      obtain ⟨i, hi⟩ := hfire
      obtain ⟨v, hv, rfl⟩ := Option.map_eq_some_iff.1 ((hview i u).trans hi)
      exact ⟨v, hu.tail ⟨i, hv⟩, rfl⟩
  · rintro ⟨u, h, rfl⟩
    induction h with
    | refl => exact Relation.ReflTransGen.refl
    | @tail u v _ hfire ih =>
      obtain ⟨i, hi⟩ := hfire
      exact ih.tail ⟨i, by rw [← hview, hi]; rfl⟩

end History

/-- Every interleaving from `s` is finite, and one that cannot go on has reached
a `final` state. -/
structure Completes (step : ι → σ → Option σ) (final : σ → Prop) (s : σ) : Prop where
  terminates : Acc (fun t s => Fires step s t) s
  progress : ∀ t, Reaches step s t → final t ∨ ∃ u, Fires step t u

/-- The rank rule for `Completes`: `R n s` says that `n` is a rank of `s`, and every
step leads to a state of lower rank. -/
theorem Completes.of_rank {R : ℕ → σ → Prop}
    (hdec : ∀ n i s t, R n s → step i s = some t → ∃ m < n, R m t)
    (hprog : ∀ n s, R n s → final s ∨ ∃ i t, step i s = some t) {n : ℕ} {s : σ} (h : R n s) :
    Completes step final s := by
  constructor
  · induction n using Nat.strongRecOn generalizing s with
    | _ n ih =>
      refine Acc.intro _ fun t ht => ?_
      obtain ⟨i, hi⟩ := ht
      obtain ⟨m, hm, hR⟩ := hdec n i s t h hi
      exact ih m hm hR
  · intro t ht
    have hrank : ∃ m, R m t := ht.invariant (I := fun u => ∃ m, R m u)
      (fun i u v ⟨m, hm⟩ hi => (hdec m i u v hm hi).imp fun _ h => h.2) ⟨n, h⟩
    obtain ⟨m, hm⟩ := hrank
    rcases hprog m t hm with hfin | ⟨i, u, hu⟩
    · exact Or.inl hfin
    · exact Or.inr ⟨u, i, hu⟩

/-- The measure rule for `Completes`. -/
theorem Completes.of_measure {I : σ → Prop} (μ : σ → ℕ)
    (hstep : ∀ i s t, I s → step i s = some t → I t)
    (hdec : ∀ i s t, I s → step i s = some t → μ t < μ s)
    (hprog : ∀ s, I s → final s ∨ ∃ i t, step i s = some t) {s : σ} (h : I s) :
    Completes step final s := by
  refine Completes.of_rank (R := fun n s => I s ∧ μ s = n) ?_ (fun n s hs => hprog s hs.1) ⟨h, rfl⟩
  rintro n i s t ⟨hs, rfl⟩ hi
  exact ⟨μ t, hdec i s t hs hi, hstep i s t hs hi, rfl⟩

/-- A part of a system that completes does so too, if it does not stop on the way. -/
theorem Completes.of_part {κ : Type*} {part : κ → σ → Option σ} {s : σ}
    (h : Completes step final s) (hpart : ∀ k s t, part k s = some t → ∃ i, step i s = some t)
    (hprog : ∀ t, Reaches part s t → final t ∨ ∃ k u, part k t = some u) :
    Completes part final s := by
  refine ⟨?_, fun t ht => (hprog t ht).imp_right fun ⟨k, u, hu⟩ => ⟨u, k, hu⟩⟩
  refine Subrelation.accessible (r := fun t s => Fires step s t) ?_ h.terminates
  rintro t s ⟨k, hk⟩
  exact hpart k s t hk

/-- A system that completes has a run to a final state. -/
theorem Completes.exists_final {s : σ} (h : Completes step final s) :
    ∃ t, Reaches step s t ∧ final t := by
  obtain ⟨hacc, hprog⟩ := h
  induction hacc with
  | intro s _ ih =>
    rcases hprog s Relation.ReflTransGen.refl with hfin | ⟨t, ht⟩
    · exact ⟨s, Relation.ReflTransGen.refl, hfin⟩
    · obtain ⟨u, hu, hfin⟩ := ih t ht fun u hu => hprog u (Relation.ReflTransGen.head ht hu)
      exact ⟨u, Relation.ReflTransGen.head ht hu, hfin⟩

end Transition
